import RetroRocket.StringAssign

/-!
# What an assignment stores

An assignment stores the value of its right-hand side where no pointer into a variable outlives the
value of that variable: neither a function may set a variable whose pointer is an operand next to
it, nor may the right-hand side be the variable itself.
-/

namespace RetroRocket

variable {κ σ ν : Type}

namespace StringStore

variable {name : κ → CString} {s s' s₁ s₂ : StringStore κ σ} {env env' : StringEnv κ σ} {v w : κ}
  {h h₁ h₂ : StringHeap} {a b length : ℕ} {t : CString} {ref : StringRef}

/-! ## Variables in order -/

structure Holds (name : κ → CString) (s : StringStore κ σ) (env : StringEnv κ σ) : Prop where
  found : ∀ v c, s.strVariables v = some c →
    ∃ t, env.value v = some (t, c.valueLength) ∧ s.heap.Owns c.value t
  varname : ∀ v c, s.strVariables v = some c → s.heap.Owns c.varname (name v)
  missing : ∀ v, s.strVariables v = none → env.value v = none
  apart : ∀ v w c d, s.strVariables v = some c → s.strVariables w = some d → c.varname ≠ d.value
  own : ∀ v w c d, v ≠ w → s.strVariables v = some c → s.strVariables w = some d →
    c.varname ≠ d.varname ∧ c.value ≠ d.value
  others : s.others = env.others

theorem Holds.contents (hs : s.Holds name env) : s.Contents env where
  found v c hc := by
    obtain ⟨t, ht, hown⟩ := hs.found v c hc
    obtain ⟨n, -, -, hbytes⟩ := hown
    exact ⟨t, ht, hbytes⟩
  missing := hs.missing
  others := hs.others

theorem Contents.unique (he : s.Contents env) (he' : s.Contents env') : env = env' := by
  ext1
  · funext v
    cases hv : s.strVariables v with
    | none => exact (he.missing v hv).trans (he'.missing v hv).symm
    | some c =>
      obtain ⟨t, ht, hbytes⟩ := he.found v c hv
      obtain ⟨t', ht', hbytes'⟩ := he'.found v c hv
      rw [ht, ht', hbytes.unique hbytes']
  · exact he.others.symm.trans he'.others

theorem Holds.setOthers (hs : s.Holds name env) (others : σ) :
    ({ s with others := others } : StringStore κ σ).Holds name { env with others := others } :=
  ⟨hs.found, hs.varname, hs.missing, hs.apart, hs.own, rfl⟩

theorem Holds.owns (hs : s.Holds name env) {c : StringVariable} (hc : s.strVariables v = some c)
    (ht : env.value v = some (t, length)) : s.heap.Owns c.value t ∧ c.valueLength = length := by
  obtain ⟨t', ht', hown⟩ := hs.found v c hc
  obtain ⟨rfl, rfl⟩ := Prod.mk.inj (Option.some.inj (ht.symm.trans ht'))
  exact ⟨hown, rfl⟩

def Spares (s : StringStore κ σ) (v : κ) (h : StringHeap) : Prop :=
  ∀ w c, w ≠ v → s.strVariables w = some c →
    ∀ t, (s.heap.Owns c.varname t → h.Owns c.varname t) ∧ (s.heap.Owns c.value t → h.Owns c.value t)

theorem Spares.strdups (hspares : s.Spares v h) (hdup : h.Strdups ref a h₁) : s.Spares v h₁ :=
  fun w c hne hc t => ⟨fun ht => hdup.owns ((hspares w c hne hc t).1 ht),
    fun ht => hdup.owns ((hspares w c hne hc t).2 ht)⟩

theorem Holds.spares_frees (hs : s.Holds name env) {c : StringVariable}
    (hc : s.strVariables v = some c) (hfree₁ : s.heap.Frees c.varname h₁)
    (hfree₂ : h₁.Frees c.value h₂) : s.Spares v h₂ := by
  intro w d hne hd t
  obtain ⟨hnames, hvalues⟩ := hs.own w v d c hne hd hc
  constructor
  · intro ht
    exact hfree₂.owns (hfree₁.owns ht hnames) (hs.apart w v d c hd hc)
  · intro ht
    exact hfree₂.owns (hfree₁.owns ht (hs.apart v w c d hc hd).symm) hvalues

def Lasting (s : StringStore κ σ) (v : κ) (ref : StringRef) (t : CString) : Prop :=
  ref = .area t ∨ ∃ w c, w ≠ v ∧ s.strVariables w = some c ∧ ref = .block c.value ∧
    s.heap.Owns c.value t

theorem Lasting.strdups (href : s.Lasting v ref t) (hspares : s.Spares v h)
    (hdup : h.Strdups ref b h₁) : h₁.Owns b t := by
  rcases href with rfl | ⟨w, c, hne, hc, rfl, hown⟩
  · exact hdup.owns_area
  · exact hdup.owns_block ((hspares w c hne hc t).2 hown)

def Keeps (s : StringStore κ σ) (env : StringEnv κ σ) (vs : List κ) (s' : StringStore κ σ)
    (env' : StringEnv κ σ) : Prop :=
  ∀ w, w ∉ vs → s'.strVariables w = s.strVariables w ∧ env'.value w = env.value w

theorem Keeps.refl (s : StringStore κ σ) (env : StringEnv κ σ) : s.Keeps env [] s env :=
  fun _ _ => ⟨rfl, rfl⟩

theorem Keeps.trans {vs ws : List κ} {env₁ env₂ : StringEnv κ σ} (h₁ : s.Keeps env vs s₁ env₁)
    (h₂ : s₁.Keeps env₁ ws s₂ env₂) : s.Keeps env (vs ++ ws) s₂ env₂ := by
  intro w hw
  rw [List.mem_append, not_or] at hw
  obtain ⟨hs₁, he₁⟩ := h₁ w hw.1
  obtain ⟨hs₂, he₂⟩ := h₂ w hw.2
  exact ⟨hs₂.trans hs₁, he₂.trans he₁⟩

/-! ## Values -/

inductive Stands (s : StringStore κ σ) (env : StringEnv κ σ) (vs : List κ) :
    StringValue ν → Operand ν → Prop where
  | area (t : CString) (length : ℕ) : Stands s env vs (.text (.area t) length) (.text t length)
  | block {w : κ} {c : StringVariable} {t : CString} (hw : w ∈ vs) (hc : s.strVariables w = some c)
      (ht : env.value w = some (t, c.valueLength)) :
      Stands s env vs (.text (.block c.value) c.valueLength) (.text t c.valueLength)
  | number (n : ν) : Stands s env vs (.number n) (.number n)

variable {vs ws : List κ} {value : StringValue ν} {o o' : Operand ν}

theorem Stands.reads (hstands : s.Stands env vs value o) (hs : s.Holds name env) :
    ReadsOperand s.heap value o := by
  cases hstands with
  | area t length => exact .text length rfl
  | block hw hc ht =>
    obtain ⟨⟨n, -, -, hbytes⟩, -⟩ := hs.owns hc ht
    exact .text _ hbytes
  | number n => exact .number n

theorem Stands.mono (hstands : s.Stands env vs value o) (hvs : ∀ w ∈ vs, w ∈ ws) :
    s.Stands env ws value o := by
  cases hstands with
  | area t length => exact .area t length
  | block hw hc ht => exact .block (hvs _ hw) hc ht
  | number n => exact .number n

theorem Stands.keeps (hstands : s.Stands env vs value o) (hkeeps : s.Keeps env ws s' env')
    (hvs : ∀ w ∈ vs, w ∉ ws) : s'.Stands env' vs value o := by
  cases hstands with
  | area t length => exact .area t length
  | @block w c t hw hc ht =>
    obtain ⟨hvariable, hvalue⟩ := hkeeps w (hvs w hw)
    exact .block hw (hvariable.trans hc) (hvalue.trans ht)
  | number n => exact .number n

theorem stands_toValue (s : StringStore κ σ) (env : StringEnv κ σ) (vs : List κ) (o : Operand ν) :
    s.Stands env vs o.toValue o := by
  cases o with
  | text t length => exact .area t length
  | number n => exact .number n

theorem Reads.unique {t' : CString} (h₁ : h.Reads ref t) (h₂ : h.Reads ref t') : t = t' := by
  cases ref with
  | area u => exact Eq.trans h₁ (Eq.symm h₂)
  | block a => exact HoldsString.unique h₁ h₂

theorem ReadsOperand.reads {l l' : ℕ}
    (ho : ReadsOperand h (.text ref l : StringValue ν) (.text t l')) :
    h.Reads ref t := by
  cases ho with
  | text _ hread => exact hread

theorem ReadsOperand.unique (h₁ : ReadsOperand h value o) (h₂ : ReadsOperand h value o') :
    o = o' := by
  cases h₁ with
  | text length hread =>
    cases h₂ with
    | text _ hread' => rw [Reads.unique hread hread']
  | number n => cases h₂; rfl

theorem readsOperand_unique {values : List (StringValue ν)} {os os' : List (Operand ν)}
    (h₁ : List.Forall₂ (ReadsOperand h) values os) (h₂ : List.Forall₂ (ReadsOperand h) values os') :
    os = os' := by
  induction h₁ generalizing os' with
  | nil => cases h₂; rfl
  | cons hhead _ ih =>
    cases h₂ with
    | cons hhead' htail' => rw [hhead.unique hhead', ih htail']

theorem forall₂_singleton {α β : Type} {R : α → β → Prop} {x : α} {ys : List β}
    (hys : List.Forall₂ R [x] ys) : ∃ y, R x y ∧ ys = [y] := by
  cases hys with
  | cons hy hnil =>
    cases hnil
    exact ⟨_, hy, rfl⟩

/-! ## Assignments -/

variable [DecidableEq κ]

theorem setVariable_self (s : StringStore κ σ) (h : StringHeap) (v : κ) (c : StringVariable) :
    (s.setVariable h v c).strVariables v = some c := Function.update_self _ _ _

theorem setVariable_of_ne (s : StringStore κ σ) (h : StringHeap)
    (c : StringVariable) (hne : w ≠ v) :
    (s.setVariable h v c).strVariables w = s.strVariables w := Function.update_of_ne hne _ _

theorem Holds.setVariable (hs : s.Holds name env) (hspares : s.Spares v h)
    (hdup₁ : h.Strdups (.area (name v)) a h₁) (hdup₂ : h₁.Strdups ref b h₂) (ht : h₂.Owns b t) :
    (s.setVariable h₂ v ⟨a, b, length⟩).Holds name (env.set v t length) := by
  have hname : h₁.Owns a (name v) := hdup₁.owns_area
  have hspares₁ : s.Spares v h₁ := hspares.strdups hdup₁
  have hspares₂ : s.Spares v h₂ := hspares₁.strdups hdup₂
  -- the blocks of another variable are not those of the copies
  have hother : ∀ w c, w ≠ v → s.strVariables w = some c →
      c.varname ≠ a ∧ c.value ≠ a ∧ c.varname ≠ b ∧ c.value ≠ b := by
    intro w c hne hc
    obtain ⟨t', -, hvalue⟩ := hs.found w c hc
    have hvarname := hs.varname w c hc
    exact ⟨hdup₁.ne ((hspares w c hne hc _).1 hvarname), hdup₁.ne ((hspares w c hne hc _).2 hvalue),
      hdup₂.ne ((hspares₁ w c hne hc _).1 hvarname), hdup₂.ne ((hspares₁ w c hne hc _).2 hvalue)⟩
  constructor
  case found =>
    intro w c hc
    by_cases hw : w = v
    · subst hw
      obtain rfl := Option.some.inj ((setVariable_self s h₂ w _).symm.trans hc)
      exact ⟨t, Function.update_self _ _ _, ht⟩
    · rw [setVariable_of_ne s h₂ _ hw] at hc
      obtain ⟨t', ht', hown⟩ := hs.found w c hc
      exact ⟨t', (Function.update_of_ne hw _ _).trans ht', (hspares₂ w c hw hc t').2 hown⟩
  case varname =>
    intro w c hc
    by_cases hw : w = v
    · subst hw
      obtain rfl := Option.some.inj ((setVariable_self s h₂ w _).symm.trans hc)
      exact hdup₂.owns hname
    · rw [setVariable_of_ne s h₂ _ hw] at hc
      exact (hspares₂ w c hw hc _).1 (hs.varname w c hc)
  case missing =>
    intro w hw
    by_cases hwv : w = v
    · subst hwv
      rw [setVariable_self] at hw
      cases hw
    · rw [setVariable_of_ne s h₂ _ hwv] at hw
      exact (Function.update_of_ne hwv _ _).trans (hs.missing w hw)
  case apart =>
    intro u w c d hc hd
    by_cases hu : u = v
    · subst hu
      obtain rfl := Option.some.inj ((setVariable_self s h₂ u _).symm.trans hc)
      by_cases hw : w = u
      · subst hw
        obtain rfl := Option.some.inj ((setVariable_self s h₂ w _).symm.trans hd)
        exact hdup₂.ne hname
      · rw [setVariable_of_ne s h₂ _ hw] at hd
        exact (hother w d hw hd).2.1.symm
    · rw [setVariable_of_ne s h₂ _ hu] at hc
      by_cases hw : w = v
      · subst hw
        obtain rfl := Option.some.inj ((setVariable_self s h₂ w _).symm.trans hd)
        exact (hother u c hu hc).2.2.1
      · rw [setVariable_of_ne s h₂ _ hw] at hd
        exact hs.apart u w c d hc hd
  case own =>
    intro u w c d hne hc hd
    by_cases hu : u = v
    · subst hu
      obtain rfl := Option.some.inj ((setVariable_self s h₂ u _).symm.trans hc)
      rw [setVariable_of_ne s h₂ _ hne.symm] at hd
      have hd' := hother w d hne.symm hd
      exact ⟨hd'.1.symm, hd'.2.2.2.symm⟩
    · rw [setVariable_of_ne s h₂ _ hu] at hc
      by_cases hw : w = v
      · subst hw
        obtain rfl := Option.some.inj ((setVariable_self s h₂ w _).symm.trans hd)
        have hc' := hother u c hu hc
        exact ⟨hc'.1, hc'.2.2.2⟩
      · rw [setVariable_of_ne s h₂ _ hw] at hd
        exact hs.own u w c d hne hc hd
  case others => exact hs.others

theorem SetStringVariable.holds (hset : s.SetStringVariable name v ref length s')
    (hs : s.Holds name env) (href : s.Lasting v ref t) :
    s'.Holds name (env.set v t length) ∧ ∀ w, w ≠ v → s'.strVariables w = s.strVariables w := by
  cases hset with
  | @found c h₁ h₂ h₃ h₄ a b hfound hfree₁ hfree₂ hdup₁ hdup₂ =>
    have hspares : s.Spares v h₂ := hs.spares_frees hfound hfree₁ hfree₂
    have ht := href.strdups (hspares.strdups hdup₁) hdup₂
    exact ⟨hs.setVariable hspares hdup₁ hdup₂ ht, fun w hne => setVariable_of_ne s h₄ _ hne⟩
  | @new h₁ h₂ a b hnew hdup₁ hdup₂ =>
    have hspares : s.Spares v s.heap := fun _ _ _ _ _ => ⟨id, id⟩
    have ht := href.strdups (hspares.strdups hdup₁) hdup₂
    exact ⟨hs.setVariable hspares hdup₁ hdup₂ ht, fun w hne => setVariable_of_ne s h₂ _ hne⟩

theorem SetAll.holds {assigned : List (κ × CString × ℕ)} (hset : SetAll name s assigned s')
    (hs : s.Holds name env) :
    s'.Holds name (env.setAll assigned) ∧
      s.Keeps env (assigned.map (·.1)) s' (env.setAll assigned) := by
  induction hset generalizing env with
  | nil s => exact ⟨hs, Keeps.refl s env⟩
  | @cons s s₁ s₂ v t length rest hset _ ih =>
    obtain ⟨hs₁, hkept⟩ := hset.holds hs (Or.inl rfl)
    obtain ⟨hs₂, hkeeps⟩ := ih hs₁
    refine ⟨hs₂, ?_⟩
    have hfirst : s.Keeps env [v] s₁ (env.set v t length) := by
      intro w hw
      have hne : w ≠ v := fun h => hw (h ▸ List.mem_singleton_self v)
      exact ⟨hkept w hne, Function.update_of_ne hne _ _⟩
    exact hfirst.trans hkeeps

/-! ## Evaluation -/

theorem Evals.stands {e : StringExpr κ σ ν} {values : List (StringValue ν)}
    (heval : Evals name e s values s') (hs : s.Holds name env) (he : e.Undisturbed env) :
    s'.Holds name (e.denote env).2 ∧ s.Keeps env (e.assigned env) s' (e.denote env).2 ∧
      List.Forall₂ (s'.Stands (e.denote env).2 (e.pointers env)) values (e.denote env).1 := by
  induction heval generalizing env with
  | @found s v c hfound =>
    obtain ⟨t, ht, -⟩ := hs.found v c hfound
    refine ⟨hs, Keeps.refl s env, ?_⟩
    have hmem : v ∈ (StringExpr.var v : StringExpr κ σ ν).pointers env := by
      simp [StringExpr.pointers, ht]
    simp only [StringExpr.denote, ht, Option.getD_some]
    exact .cons (.block hmem hfound ht) .nil
  | @missing s v hmissing =>
    refine ⟨hs, Keeps.refl s env, ?_⟩
    simp only [StringExpr.denote, hs.missing v hmissing, Option.getD_none]
    exact .cons (.area ∅ 0) .nil
  | bracket _ ih => exact ih hs he
  | @concat e f s s₁ s₂ ref ref' l l' t t' _ _ hread hread' ih ih' =>
    obtain ⟨heund, hfund, hheld⟩ := he
    obtain ⟨hs₁, hkeeps, hstands⟩ := ih hs heund
    obtain ⟨hs₂, hkeeps', hstands'⟩ := ih' hs₁ hfund
    refine ⟨hs₂, hkeeps.trans hkeeps', ?_⟩
    obtain ⟨o, ho, hvalue⟩ := forall₂_singleton hstands
    obtain ⟨o', ho', hvalue'⟩ := forall₂_singleton hstands'
    have ho := ho.keeps hkeeps' hheld
    obtain rfl := (ho.reads hs₂).unique (.text l hread)
    obtain rfl := (ho'.reads hs₂).unique (.text l' hread')
    simp only [StringExpr.denote, hvalue, hvalue', concatOperands]
    exact .cons (.area _ _) .nil
  | noOperands s => exact ⟨hs, Keeps.refl s env, .nil⟩
  | @operands e f s s₁ s₂ vs ws _ _ ih ih' =>
    obtain ⟨heund, hfund, hheld⟩ := he
    obtain ⟨hs₁, hkeeps, hstands⟩ := ih hs heund
    obtain ⟨hs₂, hkeeps', hstands'⟩ := ih' hs₁ hfund
    refine ⟨hs₂, hkeeps.trans hkeeps', ?_⟩
    apply List.rel_append
    · exact hstands.imp fun _ _ ho => (ho.keeps hkeeps' hheld).mono fun w hw =>
        List.mem_append_left _ hw
    · exact hstands'.imp fun _ _ ho => ho.mono fun w hw => List.mem_append_right _ hw
  | @call f e s s₁ s₂ vs os env₁ _ hcontents hread hset ih =>
    obtain ⟨hs₁, hkeeps, hstands⟩ := ih hs he
    obtain rfl := hcontents.unique hs₁.contents
    obtain rfl := readsOperand_unique hread (hstands.imp fun _ _ ho => ho.reads hs₁)
    obtain ⟨hs₂, hkeeps'⟩ := hset.holds (hs₁.setOthers (f (e.denote env).2 (e.denote env).1).others)
    exact ⟨hs₂, hkeeps.trans hkeeps', .cons (stands_toValue _ _ _ _) .nil⟩

/-! ## The value that is stored -/

/-- Whichever blocks are handed out: behind the assignment of the expression the variable has the
value, with its length. -/
def Stores (name : κ → CString) (env : StringEnv κ σ) (e : StringExpr κ σ ν) (v : κ) (t : CString) :
    Prop :=
  ∀ s : StringStore κ σ, s.Holds name env → ∀ ref length s₁ s',
    Evals name e s [.text ref length] s₁ → s₁.SetStringVariable name v ref length s' →
    ∃ c, s'.strVariables v = some c ∧ s'.heap.Reads (.block c.value) t ∧ c.valueLength = t.length

theorem stores_of_undisturbed {e : StringExpr κ σ ν} (he : e.Undisturbed env)
    (hv : v ∉ e.pointers env) (hvalue : (e.denote env).1 = [.text t t.length]) :
    Stores name env e v t := by
  intro s hs ref length s₁ s' heval hset
  obtain ⟨hs₁, -, hstands⟩ := heval.stands hs he
  rw [hvalue] at hstands
  obtain ⟨o, ho, hsingle⟩ := forall₂_singleton hstands
  obtain rfl := List.singleton_inj.mp hsingle
  have hlasting : s₁.Lasting v ref t ∧ length = t.length := by
    generalize t.length = l at ho
    cases ho with
    | area t length => exact ⟨Or.inl rfl, rfl⟩
    | @block w c t hw hc ht =>
      have hne : w ≠ v := fun h => hv (h ▸ hw)
      exact ⟨Or.inr ⟨w, c, hne, hc, rfl, (hs₁.owns hc ht).1⟩, rfl⟩
  obtain ⟨hlasting, rfl⟩ := hlasting
  obtain ⟨hs', -⟩ := hset.holds hs₁ hlasting
  have hset' : ((e.denote env).2.set v t t.length).value v = some (t, t.length) :=
    Function.update_self _ _ _
  cases hc : s'.strVariables v with
  | none =>
    have hnone := hs'.missing v hc
    rw [hset'] at hnone
    cases hnone
  | some c =>
    obtain ⟨⟨n, -, -, hbytes⟩, hlength⟩ := hs'.owns hc hset'
    exact ⟨c, rfl, hbytes, hlength⟩

end StringStore

end RetroRocket
