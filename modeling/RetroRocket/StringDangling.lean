import RetroRocket.StringAssignLaw

/-!
# Pointers to freed values

A heap that hands no block out twice and leaves ones in what is given back: there a pointer to a
freed value reads a longer text than the value was. So a concatenation of such a pointer is too
long, and the assignment of a variable to itself stores something else than its value.
-/

namespace RetroRocket

namespace StringStore

variable {κ σ ν : Type} {name : κ → CString} {s s₁ s₂ s' : StringStore κ σ}
  {env env₁ env' : StringEnv κ σ} {v w : κ} {vs ws : List κ} {h : StringHeap}
  {limit limit₁ limit₂ limit' length : ℕ} {t : CString} {ref : StringRef}

/-! ## Buried values -/

structure Buries (s : StringStore κ σ) (env : StringEnv κ σ) (limit : ℕ) (vs : List κ)
    (s' : StringStore κ σ) (limit' : ℕ) : Prop where
  filled : s'.heap.Filled limit'
  keeps : ∀ a n, s.heap.Buried limit a n → s'.heap.Buried limit' a n
  values : ∀ w ∈ vs, ∀ c t length, s.strVariables w = some c → env.value w = some (t, length) →
    s'.heap.Buried limit' c.value (t.length + 1)

theorem Buries.refl (hf : s.heap.Filled limit) (env : StringEnv κ σ) :
    s.Buries env limit [] s limit :=
  ⟨hf, fun _ _ hb => hb, fun _ hw => absurd hw List.not_mem_nil⟩

theorem Buries.trans (h₁ : s.Buries env limit vs s₁ limit₁) (hkeeps : s.Keeps env vs s₁ env₁)
    (h₂ : s₁.Buries env₁ limit₁ ws s₂ limit₂) : s.Buries env limit (vs ++ ws) s₂ limit₂ := by
  refine ⟨h₂.filled, fun a n hb => h₂.keeps a n (h₁.keeps a n hb), ?_⟩
  intro w hw c t length hc ht
  by_cases hfirst : w ∈ vs
  · exact h₂.keeps _ _ (h₁.values w hfirst c t length hc ht)
  · have hsecond : w ∈ ws := (List.mem_append.mp hw).resolve_left hfirst
    obtain ⟨hvariable, hvalue⟩ := hkeeps w hfirst
    exact h₂.values w hsecond c t length (hvariable.trans hc) (hvalue.trans ht)

theorem Stands.exists_ref {values : List (StringValue ν)} {s : StringStore κ σ}
    (hstands : List.Forall₂ (s.Stands env vs) values [.text t length]) :
    ∃ ref, values = [.text ref length] ∧
      s.Stands env vs (.text ref length : StringValue ν) (.text t length) := by
  cases hstands with
  | cons ho hnil =>
    cases hnil
    cases ho with
    | area t length => exact ⟨_, rfl, .area t length⟩
    | block hw hc ht => exact ⟨_, rfl, .block hw hc ht⟩

theorem Holds.fill (hs : s.Holds name env) (limit : ℕ) :
    ({ s with heap := s.heap.fill limit } : StringStore κ σ).Holds name env := by
  have howns : ∀ a t, s.heap.Owns a t → (s.heap.fill limit).Owns a t := by
    intro a t ht
    exact ht.congr (fun n hn => hn) fun n hn i hlow hhigh =>
      StringHeap.fill_bytes_of_mem hn hlow hhigh
  refine ⟨fun v c hc => ?_, fun v c hc => howns _ _ (hs.varname v c hc), hs.missing,
    hs.apart, hs.own,
    hs.others⟩
  obtain ⟨t, ht, hown⟩ := hs.found v c hc
  exact ⟨t, ht, howns _ _ hown⟩

variable [DecidableEq κ]

theorem Holds.exists_cleared (hs : s.Holds name env) (hf : s.heap.Filled limit) (v : κ) :
    ∃ h limit', h.Filled limit' ∧ s.Spares v h ∧
      (∀ a n, s.heap.Buried limit a n → h.Buried limit' a n) ∧
      (∀ c t length, s.strVariables v = some c → env.value v = some (t, length) →
        h.Buried limit' c.value (t.length + 1)) ∧
      ∃ a, ∀ ref b h' length, h.Strdups ref b h' →
        s.SetStringVariable name v ref length (s.setVariable h' v ⟨a, b, length⟩) := by
  cases hv : s.strVariables v with
  | none =>
    have hread : s.heap.Reads (.area (name v)) (name v) := rfl
    obtain ⟨h, hdup, -, hf', hburied⟩ := hf.exists_strdups hread
    have hspares : s.Spares v s.heap := fun _ _ _ _ _ => ⟨id, id⟩
    refine ⟨h, _, hf', hspares.strdups hdup, hburied, fun c t length hc => ?_, limit, ?_⟩
    · cases hc
    · exact fun ref b h' length hdup' => .new hv hdup hdup'
  | some c =>
    obtain ⟨h₁, hfree₁, hf₁, hburied₁, -⟩ := hf.exists_frees c.varname
    obtain ⟨h₂, hfree₂, hf₂, hburied₂, hlast⟩ := hf₁.exists_frees c.value
    have hread : h₂.Reads (.area (name v)) (name v) := rfl
    obtain ⟨h, hdup, -, hf', hburied⟩ := hf₂.exists_strdups hread
    have hspares : s.Spares v h₂ := hs.spares_frees hv hfree₁ hfree₂
    refine ⟨h, _, hf', hspares.strdups hdup,
      fun a n hb => hburied a n (hburied₂ a n (hburied₁ a n hb)), ?_, limit, ?_⟩
    · intro d t length hd ht
      obtain rfl := Option.some.inj hd
      obtain ⟨⟨n, hn, hlen, -⟩, -⟩ := hs.owns hv ht
      have hn₁ : (c.value, n) ∈ h₁.live := by
        rw [hfree₁.live, List.mem_filter]
        exact ⟨hn, decide_eq_true (hs.apart v v c c hv hv).symm⟩
      exact hburied _ _ ((hlast n (by omega) hn₁).mono hlen)
    · exact fun ref b h' length hdup' => .found hv hfree₁ hfree₂ hdup hdup'

theorem exists_setAll (assigned : List (κ × CString × ℕ)) (hs : s.Holds name env)
    (hf : s.heap.Filled limit) : ∃ s' limit', SetAll name s assigned s' ∧
      s.Buries env limit (assigned.map (·.1)) s' limit' := by
  induction assigned generalizing s env limit with
  | nil => exact ⟨s, limit, .nil s, Buries.refl hf env⟩
  | cons p rest ih =>
    obtain ⟨v, t, length⟩ := p
    obtain ⟨h, limit₁, hf₁, -, hburied, hvalues, a, hset⟩ := hs.exists_cleared hf v
    have hread : h.Reads (.area t) t := rfl
    obtain ⟨h', hdup, -, hf', hburied'⟩ := hf₁.exists_strdups hread
    have hset := hset (.area t) limit₁ h' length hdup
    obtain ⟨hs₁, hkept⟩ := hset.holds hs (Or.inl rfl)
    obtain ⟨s₂, limit₂, hrest, hburies⟩ := ih hs₁ hf'
    refine ⟨s₂, limit₂, .cons hset hrest, ?_⟩
    have hfirst : s.Buries env limit [v] (s.setVariable h' v ⟨a, limit₁, length⟩)
        (limit₁ + (t.length + 1)) := by
      refine ⟨hf', fun b n hb => hburied' b n (hburied b n hb), ?_⟩
      intro w hw c u l hc hu
      obtain rfl := List.mem_singleton.mp hw
      exact hburied' _ _ (hvalues c u l hc hu)
    have hkeeps :
        s.Keeps env [v] (s.setVariable h' v ⟨a, limit₁, length⟩) (env.set v t length) := by
      intro w hw
      have hne : w ≠ v := fun h => hw (h ▸ List.mem_singleton_self v)
      exact ⟨hkept w hne, Function.update_of_ne hne _ _⟩
    exact hfirst.trans hkeeps hburies

/-! ## Evaluations on such a heap -/

theorem exists_evals_of_undisturbed (e : StringExpr κ σ ν) (hs : s.Holds name env)
    (hf : s.heap.Filled limit) (hty : e.WellTyped env) (he : e.Undisturbed env) :
    ∃ values s' limit', Evals name e s values s' ∧
      s.Buries env limit (e.assigned env) s' limit' := by
  induction e generalizing s env limit with
  | var v =>
    cases hv : s.strVariables v with
    | none => exact ⟨_, s, limit, .missing hv, Buries.refl hf env⟩
    | some c => exact ⟨_, s, limit, .found hv, Buries.refl hf env⟩
  | bracket e ih =>
    obtain ⟨values, s', limit', heval, hburies⟩ := ih hs hf hty he
    exact ⟨values, s', limit', .bracket heval, hburies⟩
  | concat e f ihe ihf =>
    obtain ⟨hety, hfty, ⟨t, l, ht⟩, t', l', ht'⟩ := hty
    obtain ⟨heund, hfund, hheld⟩ := he
    obtain ⟨values, s₁, limit₁, heval, hburies⟩ := ihe hs hf hety heund
    obtain ⟨hs₁, hkeeps, hstands⟩ := heval.stands hs heund
    obtain ⟨values', s₂, limit₂, heval', hburies'⟩ := ihf hs₁ hburies.filled hfty hfund
    obtain ⟨hs₂, hkeeps', hstands'⟩ := heval'.stands hs₁ hfund
    rw [ht] at hstands
    rw [ht'] at hstands'
    obtain ⟨ref, rfl, href⟩ := Stands.exists_ref hstands
    obtain ⟨ref', rfl, href'⟩ := Stands.exists_ref hstands'
    have hread : s₂.heap.Reads ref t := ((href.keeps hkeeps' hheld).reads hs₂).reads
    have hread' : s₂.heap.Reads ref' t' := (href'.reads hs₂).reads
    exact ⟨_, s₂, limit₂, .concat heval heval' hread hread', hburies.trans hkeeps hburies'⟩
  | noOperands => exact ⟨[], s, limit, .noOperands s, Buries.refl hf env⟩
  | operands e f ihe ihf =>
    obtain ⟨hety, hfty⟩ := hty
    obtain ⟨heund, hfund, -⟩ := he
    obtain ⟨values, s₁, limit₁, heval, hburies⟩ := ihe hs hf hety heund
    obtain ⟨hs₁, hkeeps, -⟩ := heval.stands hs heund
    obtain ⟨values', s₂, limit₂, heval', hburies'⟩ := ihf hs₁ hburies.filled hfty hfund
    exact ⟨_, s₂, limit₂, .operands heval heval', hburies.trans hkeeps hburies'⟩
  | call f e ih =>
    obtain ⟨values, s₁, limit₁, heval, hburies⟩ := ih hs hf hty he
    obtain ⟨hs₁, hkeeps, hstands⟩ := heval.stands hs he
    let effect := f (e.denote env).2 (e.denote env).1
    obtain ⟨s₂, limit₂, hset, hburies'⟩ :=
      exists_setAll effect.assigned (hs₁.setOthers effect.others) hburies.filled
    refine ⟨_, s₂, limit₂, .call heval hs₁.contents (hstands.imp fun _ _ ho => ho.reads hs₁) hset,
      ?_⟩
    have hothers : s.Keeps env (e.assigned env) { s₁ with others := effect.others }
        { (e.denote env).2 with others := effect.others } := hkeeps
    have hburies₁ :
        s.Buries env limit (e.assigned env) { s₁ with others := effect.others } limit₁ :=
      ⟨hburies.filled, hburies.keeps, hburies.values⟩
    exact hburies₁.trans hothers hburies'

/-! ## Texts that are too long -/

inductive Delivers (s : StringStore κ σ) (env : StringEnv κ σ) (vs : List κ) (t : CString)
    (length : ℕ) : StringRef → Prop where
  | area (hvs : vs = []) : Delivers s env vs t length (.area t)
  | block {w : κ} {c : StringVariable} (hvs : vs = [w]) (hc : s.strVariables w = some c)
      (ht : env.value w = some (t, length)) : Delivers s env vs t length (.block c.value)
  | longer {t' : CString} (hvs : vs = []) (hlonger : t.length < t'.length) :
      Delivers s env vs t length (.area t')

theorem Delivers.exists_reads (hd : s.Delivers env vs t length ref)
    (hkeeps : s.Keeps env ws s' env') (hburies : s.Buries env limit ws s' limit')
    (hs' : s'.Holds name env') : ∃ t', s'.heap.Reads ref t' ∧ (t' = t ∨ t.length < t'.length) ∧
      ((∃ w ∈ vs, w ∈ ws) → t.length < t'.length) ∧
      ∀ u, ref = .area u → t.length < u.length → t.length < t'.length := by
  cases hd with
  | area hvs =>
    refine ⟨t, rfl, Or.inl rfl, ?_, fun u hu hlonger => StringRef.area.inj hu ▸ hlonger⟩
    rintro ⟨w, hw, -⟩
    rw [hvs] at hw
    cases hw
  | @block w c hvs hc ht =>
    by_cases hw : w ∈ ws
    · obtain ⟨t', hread, hlonger⟩ :=
        (hburies.values w hw c t length hc ht).exists_reads hburies.filled
      exact ⟨t', hread, Or.inr hlonger, fun _ => hlonger, fun _ _ _ => hlonger⟩
    · obtain ⟨hvariable, hvalue⟩ := hkeeps w hw
      obtain ⟨⟨n, -, -, hbytes⟩, -⟩ := hs'.owns (hvariable.trans hc) (hvalue.trans ht)
      refine ⟨t, hbytes, Or.inl rfl, ?_, fun u hu => by cases hu⟩
      rintro ⟨w', hw', hws⟩
      rw [hvs, List.mem_singleton] at hw'
      exact absurd (hw' ▸ hws) hw
  | @longer t' hvs hlonger =>
    exact ⟨t', rfl, Or.inr hlonger, fun _ => hlonger, fun _ _ _ => hlonger⟩

/-- An expression whose pointers are taken only by concatenations has an evaluation with a text that
is too long, where it is disturbed. -/
theorem exists_evals (e : StringExpr κ σ ν) (hs : s.Holds name env) (hf : s.heap.Filled limit)
    (hty : e.WellTyped env) (he : e.Concatenates env) (ht : (e.denote env).1 = [.text t length]) :
    ∃ ref s' limit', Evals name e s [.text ref length] s' ∧ s'.Holds name (e.denote env).2 ∧
      s.Keeps env (e.assigned env) s' (e.denote env).2 ∧
      s.Buries env limit (e.assigned env) s' limit' ∧
      s'.Delivers (e.denote env).2 (e.pointers env) t length ref ∧
      (¬ e.Undisturbed env → ∃ t', ref = .area t' ∧ t.length < t'.length) := by
  induction e generalizing s env limit t length with
  | var v =>
    cases hv : s.strVariables v with
    | none =>
      simp only [StringExpr.denote, hs.missing v hv, Option.getD_none, List.singleton_inj] at ht
      obtain ⟨rfl, rfl⟩ := Operand.text.inj ht
      refine ⟨_, s, limit, .missing hv, hs, Keeps.refl s env, Buries.refl hf env, .area ?_,
        fun h => absurd trivial h⟩
      simp [StringExpr.pointers, hs.missing v hv]
    | some c =>
      obtain ⟨u, hu, -⟩ := hs.found v c hv
      simp only [StringExpr.denote, hu, Option.getD_some, List.singleton_inj] at ht
      obtain ⟨rfl, rfl⟩ := Operand.text.inj ht
      refine ⟨_, s, limit, .found hv, hs, Keeps.refl s env, Buries.refl hf env, .block ?_ hv hu,
        fun h => absurd trivial h⟩
      simp [StringExpr.pointers, hu]
  | bracket e ih =>
    obtain ⟨ref, s', limit', heval, hrest⟩ := ih hs hf hty he ht
    exact ⟨ref, s', limit', .bracket heval, hrest⟩
  | concat e f ihe ihf =>
    obtain ⟨hety, hfty, ⟨t₁, l₁, ht₁⟩, t₂, l₂, ht₂⟩ := hty
    obtain ⟨ref₁, s₁, limit₁, heval₁, hs₁, hkeeps₁, hburies₁, hd₁, hlong₁⟩ :=
      ihe hs hf hety he.1 ht₁
    obtain ⟨ref₂, s₂, limit₂, heval₂, hs₂, hkeeps₂, hburies₂, hd₂, hlong₂⟩ :=
      ihf hs₁ hburies₁.filled hfty he.2 ht₂
    obtain ⟨u₁, hread₁, hu₁, hheld, hkept₁⟩ := hd₁.exists_reads hkeeps₂ hburies₂ hs₂
    obtain ⟨u₂, hread₂, hu₂, -, hkept₂⟩ :=
      hd₂.exists_reads (Keeps.refl s₂ _) (Buries.refl hburies₂.filled _) hs₂
    simp only [StringExpr.denote, ht₁, ht₂, concatOperands, List.singleton_inj] at ht
    obtain ⟨rfl, rfl⟩ := Operand.text.inj ht
    have hle₁ : t₁.length ≤ u₁.length := hu₁.elim (fun h => h ▸ le_rfl) le_of_lt
    have hle₂ : t₂.length ≤ u₂.length := hu₂.elim (fun h => h ▸ le_rfl) le_of_lt
    have hsum : (t₁ ++ t₂).length = t₁.length + t₂.length := CString.length_append _ _
    have hsum' : (u₁ ++ u₂).length = u₁.length + u₂.length := CString.length_append _ _
    refine ⟨_, s₂, limit₂, .concat heval₁ heval₂ hread₁ hread₂, hs₂, hkeeps₁.trans hkeeps₂,
      hburies₁.trans hkeeps₁ hburies₂, ?_, ?_⟩
    · rcases hu₁ with rfl | hlt
      · rcases hu₂ with rfl | hlt
        · exact .area rfl
        · exact .longer rfl (by omega)
      · exact .longer rfl (by omega)
    · intro hund
      refine ⟨u₁ ++ u₂, rfl, ?_⟩
      by_cases heund : e.Undisturbed env
      · by_cases hfund : f.Undisturbed (e.denote env).2
        · have hpointer : ∃ w ∈ e.pointers env, w ∈ f.assigned (e.denote env).2 := by
            by_contra hnone
            exact hund ⟨heund, hfund, fun w hw hws => hnone ⟨w, hw, hws⟩⟩
          have := hheld hpointer
          omega
        · obtain ⟨u, hu, hlt⟩ := hlong₂ hfund
          have := hkept₂ u hu hlt
          omega
      · obtain ⟨u, hu, hlt⟩ := hlong₁ heund
        have := hkept₁ u hu hlt
        omega
  | noOperands => exact he.elim
  | operands e f _ _ => exact he.elim
  | call f e _ =>
    obtain ⟨values, s', limit', heval, hburies⟩ :=
      exists_evals_of_undisturbed (.call f e) hs hf hty he
    obtain ⟨hs', hkeeps, hstands⟩ := heval.stands hs he
    rw [ht] at hstands
    obtain ⟨ref, rfl, href⟩ := Stands.exists_ref hstands
    refine ⟨ref, s', limit', heval, hs', hkeeps, hburies, ?_, fun h => absurd he h⟩
    cases href with
    | area t length => exact .area rfl
    | block hw => cases hw

/-! ## When the value is stored -/

/-- Where the values that are set free are not taken by other functions than the concatenation, the
value is stored only if there are none, the expression is not the variable itself, and its length is
the one that it reports. -/
theorem undisturbed_of_stores {e : StringExpr κ σ ν} (hs : s.Holds name env)
    (hty : e.WellTyped env) (he : e.Concatenates env) (hvalue : (e.denote env).1 = [.text t length])
    (hstores : Stores name env e v t) :
    e.Undisturbed env ∧ v ∉ e.pointers env ∧ length = t.length := by
  obtain ⟨limit, hlimit⟩ := s.heap.exists_limit
  have hs₀ := hs.fill limit
  obtain ⟨ref, s₁, limit₁, heval, hs₁, -, hburies, hd, hlong⟩ :=
    exists_evals e hs₀ (StringHeap.filled_fill hlimit) hty he hvalue
  obtain ⟨h, limit', hf, hspares, hburied, hvalues, a, hset⟩ := hs₁.exists_cleared hburies.filled v
  -- what the assignment has stored, once the value is copied
  have hstored : ∀ b h', h.Strdups ref b h' → h'.Reads (.block b) t ∧ length = t.length := by
    intro b h' hdup
    obtain ⟨c, hc, hread, hlength⟩ :=
      hstores _ hs₀ ref length s₁ _ heval (hset ref b h' length hdup)
    obtain rfl := Option.some.inj ((setVariable_self s₁ h' v _).symm.trans hc)
    exact ⟨hread, hlength⟩
  cases hd with
  | area hvs =>
    have hread : h.Reads (.area t) t := rfl
    obtain ⟨h', hdup, -⟩ := hf.exists_strdups hread
    refine ⟨?_, fun hv => ?_, (hstored _ h' hdup).2⟩
    · by_contra hund
      obtain ⟨t', ht', hlt⟩ := hlong hund
      obtain rfl := StringRef.area.inj ht'
      exact absurd hlt (Nat.lt_irrefl _)
    · rw [hvs] at hv
      cases hv
  | @block w c hvs hc ht =>
    by_cases hw : w = v
    · subst hw
      obtain ⟨h', hdup, hlong⟩ := hf.exists_copy (hvalues c t length hc ht)
      exact absurd (hlong t (hstored _ h' hdup).1) (Nat.not_succ_le_self _)
    · have hown : h.Owns c.value t := (hspares w c hw hc t).2 (hs₁.owns hc ht).1
      obtain ⟨n, hn, hlen, hbytes⟩ := hown
      have hread : h.Reads (.block c.value) t := hbytes
      obtain ⟨h', hdup, -⟩ := hf.exists_strdups hread
      refine ⟨?_, fun hv => ?_, (hstored _ h' hdup).2⟩
      · by_contra hund
        obtain ⟨t', ht', -⟩ := hlong hund
        cases ht'
      · rw [hvs, List.mem_singleton] at hv
        exact hw hv.symm
  | @longer t' hvs hlonger =>
    have hread : h.Reads (.area t') t' := rfl
    obtain ⟨h', hdup, -⟩ := hf.exists_strdups hread
    obtain ⟨n, -, -, hbytes⟩ := hdup.owns_area
    obtain rfl : t = t' := Reads.unique (hstored _ h' hdup).1 hbytes
    exact absurd hlonger (Nat.lt_irrefl _)

/-- The name `A$` at 0, and the value `AB` at 4. -/
def oneVariable : StringStore Unit Unit where
  heap := ⟨fun i => [65, 36, 0, 0, 65, 66, 0].getD i 0, [(0, 3), (4, 3)], by decide⟩
  strVariables _ := some ⟨0, 4, 2⟩
  others := ()

def oneName : Unit → CString := fun _ => ⟨[65, 36], by decide⟩

def oneText : CString := ⟨[65, 66], by decide⟩

def oneEnv : StringEnv Unit Unit := ⟨fun _ => some (oneText, 2), ()⟩

theorem oneVariable_holds : oneVariable.Holds oneName oneEnv where
  found v c hc := by
    obtain rfl := Option.some.inj hc
    exact ⟨oneText, rfl, 3, by decide, by decide, by decide⟩
  varname v c hc := by
    obtain rfl := Option.some.inj hc
    obtain rfl : v = () := rfl
    exact ⟨3, by decide, by decide, by decide⟩
  missing v hc := by cases hc
  apart v w c d hc hd := by
    obtain rfl := Option.some.inj hc
    obtain rfl := Option.some.inj hd
    decide
  own v w c d hne := absurd rfl hne
  others := rfl

/-- `A$ = A$ + "C"`. -/
def appended : StringExpr Unit Unit ℤ :=
  .concat (.var ()) (.call (fun env _ => ⟨[], env.others, .text ⟨[67], by decide⟩ 1⟩) .noOperands)

end StringStore

end RetroRocket
