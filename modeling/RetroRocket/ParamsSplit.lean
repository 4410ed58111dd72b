import RetroRocket.BuiltinParams

/-!
# Which arguments are split as they should be

The steps of a builtin function evaluate its arguments one after the other exactly if in every
argument the brackets and commas are balanced with those in its string constants.
-/

namespace RetroRocket

namespace Params

variable {ν : Type} {eval : ParamType → TokenCtx → ν × TokenCtx} {type : ParamType} {p q : Params ν}
  {ch : Char} {rest e : List Char} {k : ℕ} {depth : ℤ}

/-! ## The text -/

def KeepsText (eval : ParamType → TokenCtx → ν × TokenCtx) : Prop :=
  ∀ type c, (eval type c).2.text = c.text

theorem evalItem_text (hkeeps : KeepsText eval) : (p.evalItem eval type).ctx.text = p.ctx.text := by
  unfold evalItem
  dsimp only
  rw [hkeeps]
  dsimp only
  rw [List.set_set, TokenCtx.charAt]
  by_cases hlt : p.ctx.ptr < p.ctx.text.length
  · rw [List.getElem?_eq_getElem hlt, Option.getD_some, List.set_getElem_self]
  · exact List.set_eq_of_length_le (Nat.le_of_not_lt hlt)

theorem endItem_text (hkeeps : KeepsText eval) :
    (p.endItem eval type ch).ctx.text = p.ctx.text := by
  unfold endItem
  split
  · exact evalItem_text hkeeps
  · rfl

theorem closeItem_text (p : Params ν) : p.closeItem.ctx.text = p.ctx.text := by
  unfold closeItem
  split <;> rfl

theorem itemTurn_text (hkeeps : KeepsText eval) :
    (p.itemTurn eval type ch).1.ctx.text = p.ctx.text :=
  (closeItem_text _).trans (endItem_text hkeeps)

theorem getItems_text (hkeeps : KeepsText eval) (types : List ParamType) (p : Params ν) :
    (p.getItems eval types).ctx.text = p.ctx.text := by
  have hloop :
      ∀ type rest (p : Params ν), (getItemLoop eval type rest p).ctx.text = p.ctx.text := by
    intro type rest
    induction rest with
    | nil => exact fun p => rfl
    | cons ch rest ih =>
      intro p
      rw [getItemLoop]
      split
      · rfl
      · dsimp only
        split
        · exact itemTurn_text hkeeps
        · rw [ih, itemTurn_text hkeeps]
  induction types generalizing p with
  | nil => rfl
  | cons type types ih => exact (ih _).trans (hloop type _ p)

/-! ## The items -/

theorem closeItem_items (p : Params ν) : p.closeItem.items = p.items := by
  unfold closeItem
  split <;> rfl

theorem itemTurn_items (eval : ParamType → TokenCtx → ν × TokenCtx) (type : ParamType) (ch : Char)
    (p : Params ν) : ∃ xs, (p.itemTurn eval type ch).1.items = p.items ++ xs ∧ xs.length ≤ 1 ∧
    ((p.itemTurn eval type ch).2 = false → xs = []) := by
  have hclose :
      (p.itemTurn eval type ch).1.items = ((p.countBracket ch).endItem eval type ch).items :=
    closeItem_items _
  by_cases hend : EndsItem (p.countBracket ch).bracketDepth ch
  · rw [endItem, if_pos hend] at hclose
    refine ⟨_, hclose, Nat.le_refl 1, fun hgo => ?_⟩
    simp [itemTurn, hend] at hgo
  · rw [endItem, if_neg hend] at hclose
    exact ⟨[], hclose.trans (List.append_nil _).symm, Nat.zero_le 1, fun _ => rfl⟩

theorem getItem_items (eval : ParamType → TokenCtx → ν × TokenCtx) (type : ParamType)
    (p : Params ν) :
    ∃ xs, (p.getItem eval type).items = p.items ++ xs ∧ xs.length ≤ 1 := by
  have hloop : ∀ rest (p : Params ν),
      ∃ xs, (getItemLoop eval type rest p).items = p.items ++ xs ∧ xs.length ≤ 1 := by
    intro rest
    induction rest with
    | nil => exact fun p => ⟨[], (List.append_nil _).symm, Nat.zero_le 1⟩
    | cons ch rest ih =>
      intro p
      obtain ⟨xs, hxs, hlen, hnone⟩ := itemTurn_items eval type ch p
      rw [getItemLoop]
      split
      · exact ⟨[], (List.append_nil _).symm, Nat.zero_le 1⟩
      · dsimp only
        split
        · exact ⟨xs, hxs, hlen⟩
        · next hgo =>
          obtain ⟨ys, hys, hlen'⟩ := ih (p.itemTurn eval type ch).1
          rw [hnone (Bool.eq_false_iff.mpr hgo), List.append_nil] at hxs
          exact ⟨ys, by rw [hys, hxs], hlen'⟩
  exact hloop _ p

theorem getItems_items (eval : ParamType → TokenCtx → ν × TokenCtx) (types : List ParamType)
    (p : Params ν) : ∃ xs, (p.getItems eval types).items = p.items ++ xs ∧
      xs.length ≤ types.length := by
  induction types generalizing p with
  | nil => exact ⟨[], (List.append_nil _).symm, Nat.le_refl 0⟩
  | cons type types ih =>
    obtain ⟨xs, hxs, hlen⟩ := getItem_items eval type p
    obtain ⟨ys, hys, hlen'⟩ := ih (p.getItem eval type)
    refine ⟨xs ++ ys, ?_, ?_⟩
    · rw [← List.append_assoc, ← hxs]
      exact hys
    · rw [List.length_append, List.length_cons]
      omega

/-! ## The end of an item -/

def itemLength : ℤ → List Char → Option ℕ
  | _, [] => none
  | depth, ch :: rest =>
    if ch = '\n' ∨ ch = nul then none
    else if EndsItem (depthAfter depth ch) ch then some 0
    else (itemLength (depthAfter depth ch) rest).map (· + 1)

theorem endsItem_one (hends : EndsItem (depthAfter depth ch) ch) :
    depth = 1 ∧ (ch = ',' ∨ ch = ')') := by
  unfold EndsItem depthAfter at hends
  rcases hends with ⟨rfl, h⟩ | ⟨rfl, h⟩
  · exact ⟨by simpa using h, Or.inl rfl⟩
  · have h : depth - 1 = 0 := by simpa using h
    exact ⟨by omega, Or.inr rfl⟩

theorem one_le_depthAfter (hdepth : 1 ≤ depth) (hends : ¬ EndsItem (depthAfter depth ch) ch) :
    1 ≤ depthAfter depth ch := by
  by_cases hclose : ch = ')'
  · subst hclose
    have hafter : depthAfter depth ')' = depth - 1 := by simp [depthAfter]
    rw [hafter] at hends ⊢
    have hne : depth - 1 ≠ 0 := fun h => hends (Or.inr ⟨rfl, h⟩)
    omega
  · simp only [depthAfter, if_neg hclose]
    split <;> omega

theorem itemLength_append (rest : List Char) (hch : ch = ',' ∨ ch = ')') (hdepth : 1 ≤ depth)
    (hline : '\n' ∉ e) (hnul : nul ∉ e) :
    itemLength depth (e ++ ch :: rest) = some e.length ↔ balanced depth e = true := by
  induction e generalizing depth with
  | nil =>
    have hplain : ¬ (ch = '\n' ∨ ch = nul) := by
      rcases hch with rfl | rfl <;> decide
    rw [List.nil_append, itemLength, if_neg hplain, balanced]
    have hends : EndsItem (depthAfter depth ch) ch ↔ depth = 1 := by
      rcases hch with rfl | rfl
      · simp [EndsItem, depthAfter]
      · simp [EndsItem, depthAfter]
        omega
    by_cases hone : depth = 1
    · rw [if_pos (hends.mpr hone)]
      simp [hone]
    · rw [if_neg (mt hends.mp hone)]
      simp [hone]
  | cons c e ih =>
    rw [List.mem_cons, not_or] at hline hnul
    have hplain : ¬ (c = '\n' ∨ c = nul) :=
      fun h => h.elim (fun h => hline.1 h.symm) fun h => hnul.1 h.symm
    rw [List.cons_append, itemLength, if_neg hplain, balanced]
    by_cases hends : EndsItem (depthAfter depth c) c
    · simp [hends]
    · have hdepth' := one_le_depthAfter hdepth hends
      rw [if_neg hends, Bool.and_eq_true, ← ih hdepth' hline.2 hnul.2]
      simp [hends]

/-- The variables of the macro `k` characters on, in front of the end of the item. -/
def moved (k : ℕ) (p : Params ν) : Params ν :=
  { p with ctx := { p.ctx with ptr := p.ctx.ptr + k }, bracketDepth := 1 }

theorem charAt_of_drop (hrest : p.ctx.text.drop p.ctx.ptr = ch :: rest) :
    p.ctx.charAt p.ctx.ptr = ch := by
  have hget := congrArg List.head? hrest
  rw [List.head?_drop] at hget
  rw [TokenCtx.charAt, hget]
  rfl

theorem itemTurn_of_not_ends (hdepth : 1 ≤ p.bracketDepth)
    (hends : ¬ EndsItem (depthAfter p.bracketDepth ch) ch) (hnul : ch ≠ nul)
    (hrest : p.ctx.text.drop p.ctx.ptr = ch :: rest) :
    p.itemTurn eval type ch =
      ({ p with
          ctx := { p.ctx with ptr := p.ctx.ptr + 1 }
          bracketDepth := depthAfter p.bracketDepth ch }, false) := by
  have hcount : p.countBracket ch = { p with bracketDepth := depthAfter p.bracketDepth ch } := by
    unfold countBracket
    rw [if_neg (by omega)]
  have hbelow := one_le_depthAfter hdepth hends
  have hcloses :
      ({ p with bracketDepth := depthAfter p.bracketDepth ch } : Params ν).closes = false := by
    have hchar := charAt_of_drop hrest
    simp only [closes, decide_eq_false_iff_not, not_or]
    exact ⟨by omega, by rwa [hchar]⟩
  unfold itemTurn
  dsimp only
  rw [hcount, endItem, if_neg hends, closeItem, hcloses]
  simp [hends, advance]

theorem getItemLoop_of_some (eval : ParamType → TokenCtx → ν × TokenCtx) (type : ParamType)
    (hdepth : 1 ≤ p.bracketDepth) (hrest : p.ctx.text.drop p.ctx.ptr = rest)
    (hk : itemLength p.bracketDepth rest = some k) :
    ∃ ch tail, rest.drop k = ch :: tail ∧ (ch = ',' ∨ ch = ')') ∧
      getItemLoop eval type rest p = ((p.moved k).itemTurn eval type ch).1 := by
  induction rest generalizing p k with
  | nil => cases hk
  | cons ch rest ih =>
    rw [itemLength] at hk
    split at hk
    · cases hk
    · next hplain =>
      rw [not_or] at hplain
      rw [getItemLoop, if_neg (not_or.mpr hplain)]
      split at hk
      · next hends =>
        obtain rfl := Option.some.inj hk
        obtain ⟨hone, hch⟩ := endsItem_one hends
        refine ⟨ch, rest, rfl, hch, ?_⟩
        have hmoved : p.moved 0 = p := by
          unfold moved
          rw [Nat.add_zero, ← hone]
        have hlast : (p.itemTurn eval type ch).2 = true := by
          have hends : EndsItem (p.countBracket ch).bracketDepth ch := hends
          simp [itemTurn, hends]
        rw [hmoved]
        exact if_pos hlast
      · next hends =>
        obtain ⟨k', hk', rfl⟩ := Option.map_eq_some_iff.mp hk
        have hturn : p.itemTurn eval type ch = _ := itemTurn_of_not_ends hdepth hends hplain.2 hrest
        rw [hturn]
        dsimp only
        rw [if_neg Bool.false_ne_true]
        let q : Params ν :=
          { p with
            ctx := { p.ctx with ptr := p.ctx.ptr + 1 }
            bracketDepth := depthAfter p.bracketDepth ch }
        have hnext : q.ctx.text.drop q.ctx.ptr = rest := by
          have htail := congrArg List.tail hrest
          rwa [List.tail_drop] at htail
        obtain ⟨ch', tail, hdrop, hch', hloop⟩ :=
          ih (p := q) (one_le_depthAfter hdepth hends) hnext hk'
        refine ⟨ch', tail, hdrop, hch', hloop.trans ?_⟩
        have hmoved : q.moved k' = p.moved (k' + 1) := by
          unfold moved
          rw [Nat.add_comm k' 1, ← Nat.add_assoc]
        rw [hmoved]

theorem getItemLoop_of_none (hdepth : 1 ≤ p.bracketDepth)
    (hrest : p.ctx.text.drop p.ctx.ptr = rest) (hk : itemLength p.bracketDepth rest = none) :
    (getItemLoop eval type rest p).items = p.items := by
  induction rest generalizing p with
  | nil => rfl
  | cons ch rest ih =>
    rw [itemLength] at hk
    rw [getItemLoop]
    split at hk
    · next hplain => rw [if_pos hplain]
    · next hplain =>
      rw [if_neg hplain]
      rw [not_or] at hplain
      split at hk
      · cases hk
      · next hends =>
        have hturn : p.itemTurn eval type ch = _ := itemTurn_of_not_ends hdepth hends hplain.2 hrest
        rw [hturn]
        dsimp only
        rw [if_neg Bool.false_ne_true]
        have hnext : p.ctx.text.drop (p.ctx.ptr + 1) = rest := by
          have htail := congrArg List.tail hrest
          rwa [List.tail_drop] at htail
        exact ih (one_le_depthAfter hdepth hends) hnext (Option.map_eq_none_iff.mp hk)

/-! ## One argument -/

structure AtItem (p : Params ν) (before rest : List Char) : Prop where
  text : p.ctx.text = before ++ rest
  ptr : p.ctx.ptr = before.length
  itemBegin : p.itemBegin = before.length
  depth : p.bracketDepth = 1

theorem takeWhile_set (hk : itemLength depth rest = some k) :
    (rest.set k nul).takeWhile (· ≠ nul) = rest.take k := by
  induction rest generalizing depth k with
  | nil => cases hk
  | cons ch rest ih =>
    rw [itemLength] at hk
    split at hk
    · cases hk
    · next hplain =>
      rw [not_or] at hplain
      split at hk
      · obtain rfl := Option.some.inj hk
        rw [List.set_cons_zero, List.take_zero, List.takeWhile_cons_of_neg (by simp)]
      · obtain ⟨k', hk', rfl⟩ := Option.map_eq_some_iff.mp hk
        rw [List.set_cons_succ, List.take_succ_cons,
          List.takeWhile_cons_of_pos (by simpa using hplain.2),
          ih hk']

theorem length_take_of_itemLength (hk : itemLength depth rest = some k) :
    (rest.take k).length = k := by
  induction rest generalizing depth k with
  | nil => cases hk
  | cons ch rest ih =>
    rw [itemLength] at hk
    split at hk
    · cases hk
    · split at hk
      · obtain rfl := Option.some.inj hk
        rfl
      · obtain ⟨k', hk', rfl⟩ := Option.map_eq_some_iff.mp hk
        rw [List.take_succ_cons, List.length_cons, ih hk']

variable {before tail : List Char}

theorem AtItem.drop_ptr (hp : p.AtItem before rest) : p.ctx.text.drop p.ctx.ptr = rest := by
  rw [hp.text, hp.ptr, List.drop_left]

theorem AtItem.getItem_items (hp : p.AtItem before rest) (hk : itemLength 1 rest = some k)
    (eval : ParamType → TokenCtx → ν × TokenCtx) (type : ParamType) :
    ∃ v, (p.getItem eval type).items = p.items ++ [(rest.take k, v)] := by
  rw [← hp.depth] at hk
  obtain ⟨ch, tail, -, hch, hloop⟩ := getItemLoop_of_some eval type
    (Int.le_of_eq hp.depth.symm) hp.drop_ptr hk
  have hends : EndsItem ((p.moved k).countBracket ch).bracketDepth ch := by
    rcases hch with rfl | rfl
    · exact Or.inl ⟨rfl, rfl⟩
    · exact Or.inr ⟨rfl, rfl⟩
  have hbegin : ((p.moved k).countBracket ch).itemBegin = p.itemBegin := by
    rcases hch with rfl | rfl <;> rfl
  have hitem : stringAt (p.ctx.text.set (p.ctx.ptr + k) nul) p.itemBegin = rest.take k := by
    rw [hp.text, hp.ptr, hp.itemBegin, stringAt, List.set_append_right _ _ (Nat.le_add_right _ _),
      Nat.add_sub_cancel_left, List.drop_left, takeWhile_set hk]
  obtain ⟨v, hitems⟩ : ∃ v, (((p.moved k).countBracket ch).endItem eval type ch).items =
      p.items ++ [(stringAt (p.ctx.text.set (p.ctx.ptr + k) nul) p.itemBegin, v)] := by
    rw [endItem, if_pos hends, ← hbegin]
    exact ⟨_, rfl⟩
  rw [hitem] at hitems
  refine ⟨v, Eq.trans ?_ hitems⟩
  rw [getItem, hp.drop_ptr, hloop]
  exact closeItem_items _

theorem AtItem.balanced_of_items (hp : p.AtItem before (e ++ ch :: tail))
    (hch : ch = ',' ∨ ch = ')') (hline : '\n' ∉ e) (hnul : nul ∉ e) {v : ν}
    (hitems : (p.getItem eval type).items = p.items ++ [(e, v)]) : balanced 1 e = true := by
  rw [← itemLength_append tail hch (Int.le_refl 1) hline hnul]
  cases hk : itemLength 1 (e ++ ch :: tail) with
  | none =>
    have hnone : (p.getItem eval type).items = p.items := by
      rw [getItem, hp.drop_ptr]
      exact getItemLoop_of_none (Int.le_of_eq hp.depth.symm) hp.drop_ptr (by rwa [hp.depth])
    have hlen := congrArg List.length (hnone.symm.trans hitems)
    simp at hlen
  | some k =>
    obtain ⟨v', hitems'⟩ := hp.getItem_items hk eval type
    have hitem := List.append_cancel_left (hitems'.symm.trans hitems)
    have htake : (e ++ ch :: tail).take k = e := congrArg Prod.fst (List.singleton_inj.mp hitem)
    have hlen := length_take_of_itemLength hk
    rw [htake] at hlen
    rw [hlen]

theorem AtItem.getItem_eq (hp : p.AtItem before (e ++ ch :: tail)) (hch : ch = ',' ∨ ch = ')')
    (he : IsArgument e) (hbal : balanced 1 e = true) (eval : ParamType → TokenCtx → ν × TokenCtx)
    (type : ParamType) :
    p.getItem eval type = ((p.moved e.length).itemTurn eval type ch).1 := by
  have hk := (itemLength_append tail hch (Int.le_refl 1) he.noNewline he.noNul).mpr hbal
  rw [← hp.depth] at hk
  obtain ⟨ch', tail', hdrop, -, hloop⟩ := getItemLoop_of_some eval type
    (Int.le_of_eq hp.depth.symm) hp.drop_ptr hk
  rw [List.drop_left] at hdrop
  obtain ⟨rfl, -⟩ := List.cons_eq_cons.mp hdrop
  rw [getItem, hp.drop_ptr]
  exact hloop

theorem AtItem.charAt_end (hp : p.AtItem before (e ++ ch :: tail)) {c : TokenCtx}
    (htext : c.text = p.ctx.text) : c.charAt (p.ctx.ptr + e.length) = ch := by
  rw [TokenCtx.charAt, htext, hp.text, hp.ptr, List.getElem?_append_right (Nat.le_add_right _ _),
    Nat.add_sub_cancel_left, List.getElem?_append_right (Nat.le_refl _), Nat.sub_self]
  rfl

theorem AtItem.getItem_comma (hkeeps : KeepsText eval) (hp : p.AtItem before (e ++ ',' :: tail))
    (he : IsArgument e) (hbal : balanced 1 e = true) :
    (p.getItem eval type).AtItem (before ++ e ++ [',']) tail := by
  have hends : EndsItem ((p.moved e.length).countBracket ',').bracketDepth ',' := Or.inl ⟨rfl, rfl⟩
  have htext : (((p.moved e.length).countBracket ',').evalItem eval type).ctx.text = p.ctx.text :=
    evalItem_text hkeeps
  have hcloses : (((p.moved e.length).countBracket ',').evalItem eval type).closes = false := by
    have hchar := hp.charAt_end htext
    have hdepth : (((p.moved e.length).countBracket ',').evalItem eval type).bracketDepth = 1 := rfl
    simp only [closes, decide_eq_false_iff_not, not_or, hdepth]
    exact ⟨by decide, fun h => absurd (hchar.symm.trans h) (by decide)⟩
  have hturn : p.getItem eval type =
      (((p.moved e.length).countBracket ',').evalItem eval type).advance := by
    rw [hp.getItem_eq (Or.inl rfl) he hbal]
    unfold itemTurn
    dsimp only
    rw [endItem, if_pos hends, closeItem, hcloses]
    rfl
  rw [hturn]
  have hlen : p.ctx.ptr + e.length + 1 = (before ++ e ++ [',']).length := by
    simp [hp.ptr, Nat.add_assoc]
  refine ⟨?_, hlen, hlen, rfl⟩
  have hsame : (((p.moved e.length).countBracket ',').evalItem eval type).advance.ctx.text =
      p.ctx.text := htext
  rw [hsame, hp.text]
  simp

structure Closed (c : TokenCtx) (program : List Char) (position : ℕ) : Prop where
  text : c.text = program
  ptr : c.ptr = position
  nextptr : c.nextptr = some position
  token : c.currentToken = .closeBracket

theorem tokenBeforeNul_closeBracket {c : TokenCtx} (hrest : c.text.drop c.ptr = ')' :: rest) :
    c.tokenBeforeNul = (.closeBracket, { c with nextptr := some (c.ptr + 1) }) := by
  have hdrop : (c.text.take (c.ptr + (stringAt c.text c.ptr).length)).drop c.ptr =
      stringAt c.text c.ptr := by
    rw [List.drop_take, Nat.add_sub_cancel_left]
    exact (List.prefix_iff_eq_take.mp (List.takeWhile_prefix _)).symm
  have hstring : stringAt c.text c.ptr = ')' :: rest.takeWhile (· ≠ nul) := by
    rw [stringAt, hrest, List.takeWhile_cons_of_pos (by decide)]
  rw [hstring] at hdrop
  unfold TokenCtx.tokenBeforeNul TokenCtx.getNextToken
  dsimp only
  rw [hstring, hdrop]
  rfl

theorem AtItem.getItem_bracket (hkeeps : KeepsText eval) (hp : p.AtItem before (e ++ ')' :: tail))
    (he : IsArgument e) (hbal : balanced 1 e = true) :
    Closed (p.getItem eval type).ctx p.ctx.text (before.length + e.length + 1) := by
  have hends : EndsItem ((p.moved e.length).countBracket ')').bracketDepth ')' := Or.inr ⟨rfl, rfl⟩
  have htext : (((p.moved e.length).countBracket ')').evalItem eval type).ctx.text = p.ctx.text :=
    evalItem_text hkeeps
  have hcloses : (((p.moved e.length).countBracket ')').evalItem eval type).closes = true := by
    have hdepth : (((p.moved e.length).countBracket ')').evalItem eval type).bracketDepth = 0 := rfl
    simp [closes, hdepth]
  have hturn : p.getItem eval type =
      (((p.moved e.length).countBracket ')').evalItem eval type).readBracket.advance := by
    rw [hp.getItem_eq (Or.inr rfl) he hbal]
    unfold itemTurn
    dsimp only
    rw [endItem, if_pos hends, closeItem, hcloses]
    rfl
  have hrest : p.ctx.text.drop (p.ctx.ptr + e.length) = ')' :: tail := by
    rw [hp.text, hp.ptr, List.drop_append, List.drop_append]
    simp
  let q : Params ν := ((p.moved e.length).countBracket ')').evalItem eval type
  have hq : ({ q.ctx with nextptr := some q.ctx.ptr } : TokenCtx).text.drop q.ctx.ptr = ')' ::
      tail := by
    rw [← hrest]
    exact congrArg (List.drop _) htext
  have hread : q.readBracket.ctx =
      { q.ctx with nextptr := some (q.ctx.ptr + 1), currentToken := .closeBracket } := by
    unfold readBracket
    dsimp only
    rw [tokenBeforeNul_closeBracket (c := { q.ctx with nextptr := some q.ctx.ptr }) hq]
  have hptr : q.ctx.ptr + 1 = before.length + e.length + 1 := by
    rw [← hp.ptr]
    rfl
  rw [hturn]
  have hctx : q.readBracket.advance.ctx =
      { q.ctx with
        ptr := q.ctx.ptr + 1, nextptr := some (q.ctx.ptr + 1), currentToken := .closeBracket } := by
    unfold advance
    rw [hread]
  rw [hctx]
  exact ⟨htext, hptr, congrArg some hptr, rfl⟩

/-! ## All the arguments -/

theorem exists_item {xs : List (List Char × ν)} (hlen : xs.length ≤ 1)
    (hitems : (p.items ++ xs).map (·.1) = p.items.map (·.1) ++ [e]) : ∃ v, xs = [(e, v)] := by
  rw [List.map_append] at hitems
  have hxs := List.append_cancel_left hitems
  match xs, hlen, hxs with
  | [(x, v)], _, hxs =>
    obtain rfl : x = e := List.singleton_inj.mp hxs
    exact ⟨v, rfl⟩

theorem AtItem.getItems_iff (hkeeps : KeepsText eval) {es : List (List Char)}
    {types : List ParamType} {after : List Char} (hp : p.AtItem before (callText es ++ after))
    (hne : es ≠ []) (hes : ∀ e ∈ es, IsArgument e) (hlen : types.length = es.length) :
    ((p.getItems eval types).items.map (·.1) = p.items.map (·.1) ++ es ∧
      Closed (p.getItems eval types).ctx p.ctx.text (before.length + (callText es).length)) ↔
      ∀ e ∈ es, balanced 1 e = true := by
  induction es generalizing p before types with
  | nil => exact absurd rfl hne
  | cons e es ih =>
    obtain ⟨type, types, rfl⟩ := List.exists_cons_of_length_eq_add_one hlen
    have he := hes e List.mem_cons_self
    cases es with
    | nil =>
      obtain rfl : types = [] := List.eq_nil_of_length_eq_zero (Nat.succ.inj hlen)
      have hp : p.AtItem before (e ++ ')' :: after) := by
        rw [callText, List.append_assoc] at hp
        exact hp
      have hlength : before.length + (callText [e]).length = before.length + e.length + 1 := by
        simp [callText, Nat.add_assoc]
      rw [hlength]
      constructor
      · rintro ⟨hitems, -⟩ e' he'
        obtain rfl := List.mem_singleton.mp he'
        obtain ⟨xs, hxs, hone⟩ := Params.getItem_items eval type p
        have hitems : (p.getItem eval type).items.map (·.1) = p.items.map (·.1) ++ [e'] := hitems
        rw [hxs] at hitems
        obtain ⟨v, rfl⟩ := exists_item hone hitems
        exact hp.balanced_of_items (Or.inr rfl) he.noNewline he.noNul hxs
      · intro hbal
        have hbal := hbal e List.mem_cons_self
        have hk := (itemLength_append after (Or.inr rfl) (Int.le_refl 1) he.noNewline
          he.noNul).mpr hbal
        obtain ⟨v, hitems⟩ := hp.getItem_items hk eval type
        rw [List.take_left] at hitems
        refine ⟨?_, hp.getItem_bracket hkeeps he hbal⟩
        have hone : (p.getItems eval [type]).items = p.items ++ [(e, v)] := hitems
        rw [hone, List.map_append]
        rfl
    | cons e' es =>
      have hp : p.AtItem before (e ++ ',' :: (callText (e' :: es) ++ after)) := by
        rw [callText, List.append_assoc] at hp
        · exact hp
        · exact fun h => by cases h
      have hrest :
        p.getItems eval (type :: types) = (p.getItem eval type).getItems eval types := rfl
      have hlen : types.length = (e' :: es).length := Nat.succ.inj hlen
      have hlength : before.length + (callText (e :: e' :: es)).length =
          (before ++ e ++ [',']).length + (callText (e' :: es)).length := by
        simp [callText]
        omega
      have htext : (p.getItem eval type).ctx.text = p.ctx.text :=
        getItems_text hkeeps [type] p
      have hnext : balanced 1 e = true → ∃ v, (p.getItem eval type).items = p.items ++ [(e, v)] ∧
          (p.getItem eval type).AtItem (before ++ e ++ [',']) (callText (e' :: es) ++ after) := by
        intro hbal
        have hk := (itemLength_append (callText (e' :: es) ++ after) (Or.inl rfl)
          (Int.le_refl 1) he.noNewline he.noNul).mpr hbal
        obtain ⟨v, hitems⟩ := hp.getItem_items hk eval type
        rw [List.take_left] at hitems
        exact ⟨v, hitems, hp.getItem_comma hkeeps he hbal⟩
      rw [hrest, hlength, List.forall_mem_cons]
      constructor
      · rintro ⟨hitems, hclosed⟩
        obtain ⟨xs, hxs, hone⟩ := Params.getItem_items eval type p
        obtain ⟨ys, hys, hmany⟩ := getItems_items eval types (p.getItem eval type)
        -- every step has evaluated one item, and the first one the first argument
        rw [hys, hxs, List.append_assoc, List.map_append] at hitems
        have hall := List.append_cancel_left hitems
        have hcount := congrArg List.length hall
        simp only [List.map_append, List.length_append, List.length_map, List.length_cons]
          at hcount hmany hlen
        have hfirst : (p.items ++ xs).map (·.1) = p.items.map (·.1) ++ [e] := by
          rw [List.map_append]
          congr 1
          rw [List.map_append] at hall
          match xs, (show xs.length = 1 by omega), hall with
          | [x], _, hall => exact congrArg (fun x => [x]) (List.cons_eq_cons.mp hall).1
        obtain ⟨v, rfl⟩ := exists_item hone hfirst
        have hbal := hp.balanced_of_items (Or.inl rfl) he.noNewline he.noNul hxs
        obtain ⟨v', hitems', hat⟩ := hnext hbal
        refine ⟨hbal, (ih hat (List.cons_ne_nil _ _) (fun e he => hes e (List.mem_cons_of_mem _ he))
          hlen).mp ⟨?_, ?_⟩⟩
        · rw [hys, hxs, List.map_append]
          congr 1
          exact (List.cons_eq_cons.mp hall).2
        · rw [htext]
          exact hclosed
      · rintro ⟨hbal, hothers⟩
        obtain ⟨v, hitems, hat⟩ := hnext hbal
        obtain ⟨hitems', hclosed⟩ := (ih hat (List.cons_ne_nil _ _)
          (fun e he => hes e (List.mem_cons_of_mem _ he)) hlen).mpr hothers
        rw [htext] at hclosed
        refine ⟨?_, hclosed⟩
        rw [hitems', hitems, List.map_append, List.append_assoc]
        rfl

theorem getItem_paramsStart {c : TokenCtx} (eval : ParamType → TokenCtx → ν × TokenCtx)
    (type : ParamType) (hrest : c.text.drop c.ptr = '(' :: rest) :
    (paramsStart ν c).getItem eval type =
      getItem eval type ⟨{ c with ptr := c.ptr + 1 }, 1, c.ptr + 1, []⟩ := by
  have hchar : (paramsStart ν c).ctx.charAt (paramsStart ν c).ctx.ptr = '(' :=
    charAt_of_drop (p := paramsStart ν c) hrest
  have hturn : (paramsStart ν c).itemTurn eval type '(' =
      (⟨{ c with ptr := c.ptr + 1 }, 1, c.ptr + 1, []⟩, false) := by
    have hcount : (paramsStart ν c).countBracket '(' = ⟨c, 1, c.ptr + 1, []⟩ := rfl
    have hends : ¬ EndsItem (1 : ℤ) '(' := by decide
    have hcloses : (⟨c, 1, c.ptr + 1, []⟩ : Params ν).closes = false := by
      simp only [closes, decide_eq_false_iff_not, not_or]
      exact ⟨by decide, fun h => absurd (hchar.symm.trans h) (by decide)⟩
    unfold itemTurn
    dsimp only
    rw [hcount, endItem, if_neg hends, closeItem, hcloses]
    simp [hends, advance]
  have hnext : c.text.drop (c.ptr + 1) = rest := by
    have htail := congrArg List.tail hrest
    rwa [List.tail_drop] at htail
  have hplain : ¬ ('(' = '\n' ∨ '(' = nul) := by decide
  rw [getItem, getItem]
  change getItemLoop eval type (c.text.drop c.ptr) _ = getItemLoop eval type
    (c.text.drop (c.ptr + 1)) _
  rw [hrest, hnext, getItemLoop, if_neg hplain, hturn]
  exact if_neg Bool.false_ne_true

/-- The steps of a builtin function evaluate these arguments in their order, leave the tokenizer
behind the closing bracket, and leave the text as it was. -/
structure Splits (eval : ParamType → TokenCtx → ν × TokenCtx) (types : List ParamType)
    (c : TokenCtx) (es : List (List Char)) (position : ℕ) : Prop where
  items : ((paramsStart ν c).getItems eval types).items.map (·.1) = es
  closed : Closed ((paramsStart ν c).getItems eval types).ctx c.text position
  ended : ((paramsStart ν c).getItems eval types).ended = true

theorem exists_callText (es : List (List Char)) : ∃ front, callText es = front ++ [')'] := by
  induction es with
  | nil => exact ⟨[], rfl⟩
  | cons e es ih =>
    cases es with
    | nil => exact ⟨e, rfl⟩
    | cons e' es =>
      obtain ⟨front, hfront⟩ := ih
      refine ⟨e ++ ',' :: front, ?_⟩
      rw [callText, hfront, List.append_assoc, List.cons_append]
      exact fun h => by cases h

/-- `PARAMS_END` finds the bracket that closes the call. -/
theorem Closed.ended {p : Params ν} {es : List (List Char)} {program before after : List Char}
    (hclosed : Closed p.ctx program (before.length + 1 + (callText es).length))
    (htext : program = before ++ '(' :: (callText es ++ after)) : p.ended = true := by
  obtain ⟨front, hfront⟩ := exists_callText es
  have hsplit : p.ctx.text = (before ++ '(' :: front) ++ ')' :: after := by
    rw [hclosed.text, htext, hfront]
    simp
  have hptr : p.ctx.ptr - 1 = (before ++ '(' :: front).length := by
    rw [hclosed.ptr, hfront]
    simp
    omega
  have hchar : p.ctx.charAt (p.ctx.ptr - 1) = ')' := by
    rw [TokenCtx.charAt, hsplit, hptr, List.getElem?_append_right (Nat.le_refl _), Nat.sub_self]
    rfl
  exact decide_eq_true hchar

def noEval : ParamType → TokenCtx → Unit × TokenCtx := fun _ c => ((), c)

theorem noEval_keepsText : KeepsText noEval := fun _ _ => rfl

def callCtx (name call : List Char) : TokenCtx := ⟨name ++ call, name.length, none, .variable, []⟩

end Params

end RetroRocket
