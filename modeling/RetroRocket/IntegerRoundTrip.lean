import RetroRocket.IntegerText

/-!
# Numbers that are written and read

What `do_itoa` writes of a number is its digits, and `do_atoi` reads the number from them. The
number that has no absolute value is the only one that is not written.
-/

namespace RetroRocket

variable {mem : Buffer} {n m i d radix bound fuel : ℕ} {s : ItoaState} {t : BitVec 64}

/-! ## Strings in memory -/

theorem memrev_turns (mem : Buffer) (n : ℕ) {k : ℕ} (hk : 2 * k ≤ n) (i : ℕ) :
    (List.range k).foldl (fun mem i => mem ∘ Equiv.swap i (n - i - 1)) mem i =
      if i < k ∨ (n - k ≤ i ∧ i < n) then mem (n - 1 - i) else mem i := by
  induction k generalizing i with
  | zero =>
    rw [if_neg (by omega)]
    rfl
  | succ k ih =>
    rw [List.range_succ, List.foldl_append]
    change ((List.range k).foldl _ mem) (Equiv.swap k (n - k - 1) i) = _
    rw [ih (by omega)]
    by_cases hleft : i = k
    · subst hleft
      rw [Equiv.swap_apply_left, if_neg (by omega), if_pos (by omega)]
      congr 1
      omega
    · by_cases hright : i = n - k - 1
      · subst hright
        rw [Equiv.swap_apply_right, if_neg (by omega), if_pos (by omega)]
        congr 1
        omega
      · rw [Equiv.swap_apply_of_ne_of_ne hleft hright]
        congr 1
        apply propext
        omega

theorem memrev_apply (mem : Buffer) (n i : ℕ) :
    memrev mem n i = if i < n then mem (n - 1 - i) else mem i := by
  rw [memrev, memrev_turns mem n (by omega)]
  by_cases hmoved : i < n / 2 ∨ (n - n / 2 ≤ i ∧ i < n)
  · rw [if_pos hmoved, if_pos (by omega)]
  · rw [if_neg hmoved]
    split
    · -- the byte in the middle
      congr 1
      omega
    · rfl

theorem strlen_eq (h : IsText mem n) (hn : n < bound) : strlen mem bound = n := by
  have hfind : (List.range bound).find? (mem · == 0) = some n := by
    rw [List.find?_range_eq_some]
    refine ⟨beq_iff_eq.mpr h.1, List.mem_range.mpr hn, fun j hj => ?_⟩
    rw [Bool.not_eq_true', beq_eq_false_iff_ne]
    exact h.2 j hj
  rw [strlen, hfind, Option.getD_some]

theorem length_textOf (mem : Buffer) (n : ℕ) : (textOf mem n).length = n := by
  rw [textOf, List.length_map, List.length_range]

theorem textOf_memrev (mem : Buffer) (n : ℕ) :
    textOf (memrev mem n) n = (textOf mem n).reverse := by
  apply List.ext_getElem
  · rw [List.length_reverse, length_textOf, length_textOf]
  · intro i hi _
    rw [length_textOf] at hi
    rw [List.getElem_reverse]
    simp only [textOf, List.getElem_map, List.getElem_range, List.length_map, List.length_range]
    rw [memrev_apply, if_pos hi]

theorem IsText.memrev (h : IsText mem n) : IsText (memrev mem n) n := by
  constructor
  · rw [memrev_apply, if_neg (Nat.lt_irrefl n)]
    exact h.1
  · intro i hi
    rw [memrev_apply, if_pos hi]
    exact h.2 _ (by omega)

/-! ## Digits -/

def digitByte (d : ℕ) : Byte := alphabet.getD d 0

/-- What the loop of `do_atoi` finds in a digit. -/
theorem digitByte_facts : ∀ d < 36, alphabet[d]? = some (digitByte d) ∧ digitByte d ≠ 0 ∧
    digitByte d ≠ charByte '-' ∧ digitByte d ∉ blanks ∧
    alphabet.idxOf? (upperByte (digitByte d)) = some d := by
  decide

theorem digitAt_eq (hd : d < radix) (hradix : radix ≤ 36) :
    digitAt radix d = some (digitByte d) := by
  rw [digitAt, if_pos ⟨Int.natCast_nonneg d, by exact_mod_cast hd⟩, Int.toNat_natCast]
  exact (digitByte_facts d (by omega)).1

/-! ## Division -/

theorem toInt_radix (hradix : radix ≤ 36) : (BitVec.ofNat 64 radix).toInt = radix := by
  rw [BitVec.toInt_ofNat']
  exact Int.bmod_eq_of_le (by omega) (by omega)

theorem toInt_of_lt (ht : t.toNat < 2 ^ 63) : t.toInt = t.toNat :=
  BitVec.toInt_eq_toNat_of_lt (by omega)

theorem toInt_srem_radix (ht : t.toNat < 2 ^ 63) (hradix : radix ≤ 36) :
    (t.srem (BitVec.ofNat 64 radix)).toInt = (t.toNat % radix : ℕ) := by
  rw [BitVec.toInt_srem, toInt_radix hradix, toInt_of_lt ht, ← Int.ofNat_tmod]

theorem toNat_sdiv_radix (ht : t.toNat < 2 ^ 63) (hradix : radix ≤ 36) :
    (t.sdiv (BitVec.ofNat 64 radix)).toNat = t.toNat / radix := by
  have hint : (t.sdiv (BitVec.ofNat 64 radix)).toInt = (t.toNat / radix : ℕ) := by
    rw [BitVec.toInt_sdiv, toInt_radix hradix, toInt_of_lt ht, ← Int.ofNat_tdiv]
    have hle : t.toNat / radix ≤ t.toNat := Nat.div_le_self _ _
    generalize t.toNat / radix = q at hle
    exact Int.bmod_eq_of_le (by omega) (by omega)
  have hlt := (t.sdiv (BitVec.ofNat 64 radix)).isLt
  generalize t.toNat / radix = q at hint ⊢
  rw [BitVec.toInt_eq_toNat_cond] at hint
  split at hint <;> omega

/-! ## Writing -/

namespace ItoaState

@[simp] theorem put_buf (s : ItoaState) (c : Byte) : (s.put c).buf = s.buf + 1 := rfl

@[simp] theorem put_mem (s : ItoaState) (c : Byte) :
    (s.put c).mem = Function.update s.mem s.buf c := rfl

def puts (s : ItoaState) (bytes : List Byte) : ItoaState := bytes.foldl put s

theorem puts_with (s : ItoaState) (bytes : List Byte) (t : BitVec 64) (len : ℕ) :
    puts { s with target := t, outLen := len } bytes =
      { s.puts bytes with target := t, outLen := len } := by
  induction bytes generalizing s with
  | nil => rfl
  | cons c bytes ih => exact ih (s.put c)

theorem puts_append (s : ItoaState) (bytes more : List Byte) :
    s.puts (bytes ++ more) = (s.puts bytes).puts more := List.foldl_append

theorem puts_buf (s : ItoaState) (bytes : List Byte) :
    (s.puts bytes).buf = s.buf + bytes.length := by
  induction bytes generalizing s with
  | nil => rfl
  | cons c bytes ih =>
    have hrest : ((s.put c).puts bytes).buf = _ := ih (s.put c)
    refine hrest.trans ?_
    rw [put_buf, List.length_cons]
    omega

theorem puts_mem (s : ItoaState) (bytes : List Byte) (i : ℕ) :
    (s.puts bytes).mem i =
      if s.buf ≤ i ∧ i < s.buf + bytes.length then bytes.getD (i - s.buf) 0 else s.mem i := by
  induction bytes generalizing s with
  | nil => exact (if_neg (by rw [List.length_nil]; omega)).symm
  | cons c bytes ih =>
    have hrest : ((s.put c).puts bytes).mem i = _ := ih (s.put c)
    refine hrest.trans ?_
    rw [put_buf, put_mem, List.length_cons]
    by_cases hfirst : i = s.buf
    · subst hfirst
      rw [if_neg (by omega), if_pos (by omega), Function.update_self, Nat.sub_self]
      rfl
    · rw [Function.update_of_ne hfirst]
      by_cases hin : s.buf + 1 ≤ i ∧ i < s.buf + 1 + bytes.length
      · rw [if_pos hin, if_pos (by omega)]
        have hsub : i - s.buf = i - (s.buf + 1) + 1 := by omega
        rw [hsub, List.getD_cons_succ]
      · rw [if_neg hin, if_neg (by omega)]

end ItoaState

theorem itoaLoop_succ (radix fuel : ℕ) (s : ItoaState) :
    itoaLoop radix (fuel + 1) s = (do
      let c ← digitAt radix (s.target.srem (BitVec.ofNat 64 radix)).toInt
      let s := { s.put c with
        outLen := s.outLen + 1
        target := s.target.sdiv (BitVec.ofNat 64 radix) }
      if s.target ≠ 0 then itoaLoop radix fuel s else some s) := rfl

theorem itoaLoop_digits (hradix : 2 ≤ radix ∧ radix ≤ 36) (ht : s.target.toNat < 2 ^ 63)
    (hfuel : s.target.toNat < 2 ^ (fuel + 1)) :
    ∃ ds : List ℕ, (∀ d ∈ ds, d < radix) ∧ Nat.ofDigits radix ds = s.target.toNat ∧
      0 < ds.length ∧ ds.length ≤ fuel + 1 ∧
      itoaLoop radix (fuel + 1) s = some { s.puts (ds.map digitByte) with
        target := 0
        outLen := s.outLen + ds.length } := by
  induction fuel generalizing s with
  | zero =>
    have hlt : s.target.toNat < radix := by omega
    refine ⟨[s.target.toNat], fun d hd => by rw [List.mem_singleton.mp hd]; exact hlt,
      Nat.ofDigits_singleton, Nat.one_pos, Nat.le_refl 1, ?_⟩
    have hzero : s.target.sdiv (BitVec.ofNat 64 radix) = 0 := by
      apply BitVec.eq_of_toNat_eq
      rw [toNat_sdiv_radix ht hradix.2, Nat.div_eq_of_lt hlt]
      rfl
    rw [itoaLoop_succ, toInt_srem_radix ht hradix.2, Nat.mod_eq_of_lt hlt, digitAt_eq hlt hradix.2]
    dsimp only [Option.bind_eq_bind, Option.bind_some]
    rw [hzero, if_neg (not_not.mpr rfl)]
    rfl
  | succ fuel ih =>
    have hmod : s.target.toNat % radix < radix := Nat.mod_lt _ (by omega)
    have hdiv := toNat_sdiv_radix ht hradix.2
    rw [itoaLoop_succ, toInt_srem_radix ht hradix.2, digitAt_eq hmod hradix.2]
    dsimp only [Option.bind_eq_bind, Option.bind_some]
    by_cases hzero : s.target.sdiv (BitVec.ofNat 64 radix) = 0
    · rw [if_neg (not_not.mpr hzero), hzero]
      rw [hzero] at hdiv
      have hlt : s.target.toNat < radix := by
        rcases Nat.div_eq_zero_iff.mp hdiv.symm with h | h
        · omega
        · exact h
      refine ⟨[s.target.toNat % radix],
        fun d hd => by rw [List.mem_singleton.mp hd]; exact hmod, ?_,
        Nat.one_pos, by rw [List.length_singleton]; omega, rfl⟩
      rw [Nat.ofDigits_singleton, Nat.mod_eq_of_lt hlt]
    · rw [if_pos hzero]
      have hsmall : s.target.toNat / radix ≤ s.target.toNat / 2 :=
        Nat.div_le_div_left hradix.1 (by omega)
      obtain ⟨ds, hds, hvalue, -, hlength, hrun⟩ := @ih
        { s.put (digitByte (s.target.toNat % radix)) with
          outLen := s.outLen + 1
          target := s.target.sdiv (BitVec.ofNat 64 radix) }
        (by rw [hdiv]; omega) (by rw [hdiv]; rw [Nat.pow_succ] at hfuel; omega)
      dsimp only at hvalue hrun
      refine ⟨s.target.toNat % radix :: ds, ?_, ?_, Nat.succ_pos _, Nat.succ_le_succ hlength, ?_⟩
      · intro d hd
        rcases List.mem_cons.mp hd with rfl | hd
        · exact hmod
        · exact hds d hd
      · rw [Nat.ofDigits_cons, hvalue, hdiv]
        exact Nat.mod_add_div _ _
      · rw [hrun, ItoaState.puts_with, List.length_cons]
        congr 2
        omega

theorem itoaLoop_neg (hradix : 2 ≤ radix ∧ radix ≤ 36) (ht : s.target.toInt < 0) :
    itoaLoop radix fuel s = none := by
  induction fuel generalizing s with
  | zero => rfl
  | succ fuel ih =>
    rw [itoaLoop_succ, BitVec.toInt_srem, toInt_radix hradix.2]
    by_cases hzero : s.target.toInt.tmod radix = 0
    · rw [hzero]
      have hdigit := digitAt_eq (show 0 < radix by omega) hradix.2
      rw [Int.ofNat_zero] at hdigit
      rw [hdigit]
      dsimp only [Option.bind_eq_bind, Option.bind_some]
      have hmul : (radix : ℤ) * s.target.toInt.tdiv radix = s.target.toInt := by
        have := Int.mul_tdiv_add_tmod s.target.toInt radix
        omega
      have hquot : s.target.toInt.tdiv radix < 0 := by
        by_contra hge
        have := Int.mul_nonneg (Int.natCast_nonneg radix) (Int.not_lt.mp hge)
        omega
      have hlow : -2 ^ 63 ≤ s.target.toInt.tdiv radix := by
        have hmin := BitVec.le_toInt s.target
        have hle : (radix : ℤ) * s.target.toInt.tdiv radix ≤ 1 * s.target.toInt.tdiv radix :=
          Int.mul_le_mul_of_nonpos_right (by omega) hquot.le
        omega
      have hint : (s.target.sdiv (BitVec.ofNat 64 radix)).toInt = s.target.toInt.tdiv radix := by
        rw [BitVec.toInt_sdiv, toInt_radix hradix.2]
        exact Int.bmod_eq_of_le (by omega) (by omega)
      rw [if_pos]
      · apply ih
        exact hint.symm ▸ hquot
      · intro hnull
        rw [hnull] at hint
        have : (0 : BitVec 64).toInt = 0 := rfl
        omega
    · have hneg : s.target.toInt.tmod radix < 0 := by
        have hle := Int.tmod_nonneg (a := -s.target.toInt) radix (by omega)
        rw [Int.neg_tmod] at hle
        omega
      rw [digitAt, if_neg (by omega)]
      rfl

/-! ## Reading -/

theorem atoiLoop_digit (r : AtoiState) (text : List Byte) (hd : d < radix) (hradix : radix ≤ 36) :
    atoiLoop radix r (digitByte d :: text) =
      atoiLoop radix { r with
        looped := true
        succ := true
        res := r.res * BitVec.ofNat 64 radix + BitVec.ofNat 64 d } text := by
  obtain ⟨-, -, hminus, hblank, hindex⟩ := digitByte_facts d (by omega)
  rw [atoiLoop, if_neg hminus, if_neg hblank]
  dsimp only
  rw [hindex]
  exact if_neg (by omega)

theorem atoiLoop_digits {ds : List ℕ} (hds : ∀ d ∈ ds, d < radix) (hradix : radix ≤ 36)
    (hne : 0 < ds.length) (sign : Bool) (text : List Byte) :
    atoiLoop radix ⟨0, false, sign, false⟩ (ds.reverse.map digitByte ++ text) =
      atoiLoop radix ⟨BitVec.ofNat 64 (Nat.ofDigits radix ds), true, sign, true⟩ text := by
  induction ds generalizing text with
  | nil => exact absurd hne (Nat.lt_irrefl 0)
  | cons d ds ih =>
    have hd := hds d List.mem_cons_self
    rw [List.reverse_cons, List.map_append, List.append_assoc, List.map_singleton,
      List.singleton_append]
    cases ds with
    | nil =>
      have hvalue :
          (0 : BitVec 64) * BitVec.ofNat 64 radix + BitVec.ofNat 64 d = BitVec.ofNat 64 d :=
        (congrArg (· + _) BitVec.zero_mul).trans (BitVec.zero_add _)
      rw [List.reverse_nil, List.map_nil, List.nil_append, atoiLoop_digit _ _ hd hradix,
        Nat.ofDigits_singleton, hvalue]
    | cons e es =>
      rw [ih (fun c hc => hds c (List.mem_cons_of_mem d hc)) (Nat.succ_pos _),
        atoiLoop_digit _ _ hd hradix, Nat.ofDigits_cons]
      congr 2
      rw [← BitVec.ofNat_mul, ← BitVec.ofNat_add, Nat.add_comm, Nat.mul_comm]
      rfl

theorem doAtoi_digits {ds : List ℕ} (hds : ∀ d ∈ ds, d < radix) (hradix : 2 ≤ radix ∧ radix ≤ 36)
    (hne : 0 < ds.length) (sign : Bool) :
    doAtoi (((if sign then [charByte '-'] else []) ++ ds.reverse.map digitByte)) radix =
      (0, some (if sign then -BitVec.ofNat 64 (Nat.ofDigits radix ds)
        else BitVec.ofNat 64 (Nat.ofDigits radix ds))) := by
  have hrun : atoiLoop radix ⟨0, false, false, false⟩
      ((if sign then [charByte '-'] else []) ++ ds.reverse.map digitByte) =
        ⟨BitVec.ofNat 64 (Nat.ofDigits radix ds), true, sign, true⟩ := by
    have hdigits := atoiLoop_digits hds hradix.2 hne sign []
    rw [List.append_nil] at hdigits
    cases sign with
    | false => exact hdigits
    | true => exact hdigits
  rw [doAtoi, if_neg (by omega), hrun]
  rfl

/-! ## Both -/

theorem puts_text (t : BitVec 64) (mem : Buffer) {bytes : List Byte} (hbytes : ∀ c ∈ bytes, c ≠ 0) :
    let s := (⟨t, mem, 0, 0⟩ : ItoaState).puts (bytes ++ [0])
    IsText s.mem bytes.length ∧ textOf s.mem bytes.length = bytes ∧
      ∀ i, bytes.length < i → s.mem i = mem i := by
  have hmem : ∀ i, ((⟨t, mem, 0, 0⟩ : ItoaState).puts (bytes ++ [0])).mem i =
      if i < bytes.length + 1 then (bytes ++ [0]).getD i 0 else mem i := by
    intro i
    rw [ItoaState.puts_mem, List.length_append, List.length_singleton]
    simp only [Nat.zero_le, true_and, Nat.zero_add, Nat.sub_zero]
  have hat : ∀ i (hi : i < bytes.length),
      ((⟨t, mem, 0, 0⟩ : ItoaState).puts (bytes ++ [0])).mem i = bytes[i] := by
    intro i hi
    rw [hmem, if_pos (by omega), List.getD_eq_getElem?_getD, List.getElem?_append_left hi,
      List.getElem?_eq_getElem hi, Option.getD_some]
  refine ⟨⟨?_, fun i hi => ?_⟩, ?_, fun i hi => ?_⟩
  · rw [hmem, if_pos (Nat.lt_succ_self _), List.getD_eq_getElem?_getD, List.getElem?_concat_length,
      Option.getD_some]
  · rw [hat i hi]
    exact hbytes _ (List.getElem_mem hi)
  · apply List.ext_getElem (length_textOf _ _)
    intro i _ hi
    simp only [textOf, List.getElem_map, List.getElem_range]
    exact hat i hi
  · rw [hmem, if_neg (by omega)]

theorem toNat_abs {n : BitVec 64} (hn : n ≠ BitVec.intMin 64) :
    (if n.slt 0 then -n else n).toNat < 2 ^ 63 := by
  have hzero : (0 : BitVec 64).toInt = 0 := rfl
  split
  · next hneg =>
    rw [BitVec.slt_iff_toInt_lt, hzero] at hneg
    have hint := BitVec.toInt_neg_of_ne_intMin hn
    have hlow := BitVec.le_toInt n
    have hne : n.toInt ≠ -2 ^ 63 := by
      intro h
      exact hn (BitVec.eq_of_toInt_eq h)
    rw [BitVec.toInt_eq_toNat_cond] at hint
    have hlt := (-n).isLt
    split at hint <;> omega
  · next hpos =>
    rw [BitVec.slt_iff_toInt_lt, hzero, BitVec.toInt_eq_toNat_cond] at hpos
    have hlt := n.isLt
    split at hpos <;> omega

theorem doItoa_text (mem : Buffer) {n : BitVec 64} (hradix : 2 ≤ radix ∧ radix ≤ 36)
    (hn : n ≠ BitVec.intMin 64) :
    ∃ (ds : List ℕ) (s : ItoaState), doItoa n mem radix = some (0, s) ∧
      (∀ d ∈ ds, d < radix) ∧ 0 < ds.length ∧
      Nat.ofDigits radix ds = (if n.slt 0 then -n else n).toNat ∧
      s.buf ≤ 66 ∧ (∀ i, 66 ≤ i → s.mem i = mem i) ∧ IsText s.mem s.outLen ∧
      textOf s.mem s.outLen = (if n.slt 0 then [charByte '-'] else
        []) ++ ds.reverse.map digitByte := by
  have hfuel : (if n.slt 0 then -n else n).toNat < 2 ^ (63 + 1) :=
    Nat.lt_trans (toNat_abs hn) (by decide)
  obtain ⟨ds, hds, hvalue, hne, hlength, hrun⟩ :=
    itoaLoop_digits (s := ⟨if n.slt 0 then -n else n, mem, 0, 0⟩) hradix (toNat_abs hn) hfuel
  let bytes := ds.map digitByte ++ if n.slt 0 then [charByte '-'] else []
  have hbytes : ∀ c ∈ bytes, c ≠ 0 := by
    intro c hc
    rcases List.mem_append.mp hc with hc | hc
    · obtain ⟨d, hd, rfl⟩ := List.mem_map.mp hc
      have hlt := hds d hd
      exact (digitByte_facts d (by omega)).2.1
    · split at hc
      · rw [List.mem_singleton.mp hc]
        decide
      · cases hc
  have hlen : bytes.length = ds.length + if n.slt 0 then 1 else 0 := by
    rw [List.length_append, List.length_map]
    split <;> rfl
  let t := if n.slt 0 then -n else n
  let s := (⟨t, mem, 0, 0⟩ : ItoaState).puts (bytes ++ [0])
  obtain ⟨htext, hwritten, hframe⟩ := puts_text t mem hbytes
  have hbuf : s.buf = bytes.length + 1 := by
    rw [ItoaState.puts_buf, List.length_append, List.length_singleton, Nat.zero_add]
  have hbound : bytes.length ≤ 65 := by
    rw [hlen]
    split <;> omega
  have hstr : strrev s.mem s.buf = memrev s.mem bytes.length := by
    rw [strrev, strlen_eq htext (by rw [hbuf]; exact Nat.lt_succ_self _)]
  refine ⟨ds, { s with target := 0, outLen := bytes.length, mem := memrev s.mem bytes.length }, ?_,
    hds,
    hne, hvalue, ?_, ?_, htext.memrev, ?_⟩
  · rw [doItoa, if_neg (by omega), ← hstr, hlen]
    dsimp only
    rw [hrun]
    dsimp only [s, t, bytes, Option.bind_eq_bind, Option.bind_some]
    rw [ItoaState.puts_append, ItoaState.puts_append, Nat.zero_add]
    split
    · rfl
    · rfl
  · rw [hbuf]
    omega
  · intro i hi
    dsimp only
    rw [memrev_apply, if_neg (by omega)]
    exact hframe i (by omega)
  · rw [textOf_memrev, hwritten, List.reverse_append, List.map_reverse]
    congr 1
    split <;> rfl

theorem doItoa_least (mem : Buffer) (hradix : 2 ≤ radix ∧ radix ≤ 36) :
    doItoa (BitVec.intMin 64) mem radix = none := by
  have hneg : (BitVec.intMin 64).slt 0 = true := by decide
  have hfault : itoaLoop radix 64 ⟨-BitVec.intMin 64, mem, 0, 0⟩ = none :=
    itoaLoop_neg hradix (show (-BitVec.intMin 64).toInt < 0 by decide)
  rw [doItoa, if_neg (by omega)]
  dsimp only
  rw [hneg, if_pos rfl, hfault]
  rfl

/-- A number is read back from what is written of it, unless it has no absolute value. -/
theorem roundTrips_iff (n : BitVec 64) (mem : Buffer) (hradix : 2 ≤ radix ∧ radix ≤ 36) :
    RoundTrips n radix mem ↔ n ≠ BitVec.intMin 64 := by
  constructor
  · rintro ⟨s, hrun, -⟩ rfl
    rw [doItoa_least mem hradix] at hrun
    cases hrun
  · intro hn
    obtain ⟨ds, s, hrun, hds, hne, hvalue, hbuf, hmem, htext, hwritten⟩ := doItoa_text mem hradix hn
    refine ⟨s, hrun, hbuf, hmem, htext, ?_⟩
    rw [hwritten, doAtoi_digits hds hradix hne, hvalue, BitVec.ofNat_toNat, BitVec.setWidth_eq]
    split
    · rw [BitVec.neg_neg]
    · rfl

theorem roundTrips_iff_hex :
    (2 ≤ 16 ∧ 16 ≤ 36) ∧
    (RoundTrips (-255) 16 (fun _ => 0) ↔ (-255 : BitVec 64) ≠ BitVec.intMin 64) :=
  ⟨by decide, roundTrips_iff (-255) (fun _ => 0) (by decide)⟩

theorem not_roundTrips_least :
    ¬ ∀ (n : BitVec 64) (radix : ℕ) (mem : Buffer), 2 ≤ radix ∧ radix ≤ 36 →
      RoundTrips n radix mem := by
  intro h
  obtain ⟨s, hrun, -⟩ := h (BitVec.intMin 64) 10 (fun _ => 0) (by decide)
  rw [doItoa_least _ (by decide)] at hrun
  cases hrun

end RetroRocket
