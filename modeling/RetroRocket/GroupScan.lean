import RetroRocket.FreeSpaceState

/-!
# The scans of one group

The prefix scan and the run search are exact. The suffix scan is not: arriving at the top of a
byte, it tests the bytes below that byte and, when they are zero, moves past the byte itself. So
it sees a used bit only in the first and the last byte of the group and in a byte whose
predecessor is not zero. `SeenUsed` is that condition, and `suffix_spec` says that the scan stops
at the last used bit that satisfies it.
-/

namespace RetroRocket

theorem scanBit_eq_zero (buf : Buffer) (b : ℕ) : scanBit buf b = 0 ↔ bit buf b = false := by
  have hshift : b >>> 3 = b / 8 := Nat.shiftRight_eq_div_pow b 3
  have hand : b &&& 7 = b % 8 := Nat.and_two_pow_sub_one_eq_mod b 3
  unfold scanBit
  rw [hshift, hand]
  exact shiftRight_and_one_eq_zero _ _

/-! ## The prefix -/

def PrefixInv (buf : Buffer) (n : ℕ) (r : ℕ × ℕ) : Prop :=
  r.1 = r.2 ∧ r.2 ≤ n ∧ ∀ i < r.2, bit buf i = false

theorem prefixInByte_inv {buf : Buffer} {n j : ℕ} (fuel k : ℕ) (hk : k + fuel ≤ 8)
    (h : PrefixInv buf n (8 * j + k, 8 * j + k)) :
    PrefixInv buf n (prefixInByte n fuel (buf j >>> k) (8 * j + k) (8 * j + k)) := by
  induction fuel generalizing k with
  | zero => exact h
  | succ fuel ih =>
    unfold prefixInByte
    split
    · next hc =>
      obtain ⟨hlt, hzero⟩ := hc
      have hbit : bit buf (8 * j + k) = false := by
        rw [bit_byte buf j k (by omega)]
        exact (shiftRight_and_one_eq_zero _ _).mp hzero
      have hstep : PrefixInv buf n (8 * j + (k + 1), 8 * j + (k + 1)) := by
        refine ⟨rfl, by omega, fun i hi => ?_⟩
        rcases Nat.lt_or_eq_of_le (Nat.lt_succ_iff.mp hi) with hlt' | rfl
        · exact h.2.2 i hlt'
        · exact hbit
      have hshift : buf j >>> k >>> 1 = buf j >>> (k + 1) := by
        rw [← BitVec.shiftRight_add]
      rw [hshift]
      exact ih (k + 1) (by omega) hstep
    · exact h

theorem prefixBytes_inv (buf : Buffer) (n fuel j : ℕ)
    (h : PrefixInv buf n (8 * j, 8 * j)) :
    PrefixInv buf n (prefixBytes buf n fuel (8 * j) (8 * j)) := by
  induction fuel generalizing j with
  | zero => exact h
  | succ fuel ih =>
    have hj : (8 * j) >>> 3 = j := by
      rw [Nat.shiftRight_eq_div_pow]
      omega
    unfold prefixBytes
    split
    · next hle =>
      dsimp only
      rw [hj]
      split
      · next hzero =>
        apply ih (j + 1)
        refine ⟨rfl, by omega, fun i hi => ?_⟩
        by_cases hlow : i < 8 * j
        · exact h.2.2 i hlow
        · exact byte_eq_zero_iff.mp hzero i (by omega)
      · have := prefixInByte_inv (j := j) 8 0 le_rfl h
        rwa [BitVec.ushiftRight_zero] at this
    · exact h

theorem prefixBits_spec {buf : Buffer} {n : ℕ} (fuel b : ℕ) (hfuel : n ≤ b + fuel) (hb : b ≤ n)
    (hfree : ∀ i < b, bit buf i = false) :
    prefixBits buf n fuel b b ≤ n ∧ (∀ i < prefixBits buf n fuel b b, bit buf i = false) ∧
      (prefixBits buf n fuel b b = n ∨ bit buf (prefixBits buf n fuel b b) = true) := by
  induction fuel generalizing b with
  | zero => exact ⟨hb, hfree, Or.inl (by unfold prefixBits; omega)⟩
  | succ fuel ih =>
    unfold prefixBits
    split
    · next hc =>
      obtain ⟨hlt, hzero⟩ := hc
      apply ih (b + 1) (by omega) (by omega)
      intro i hi
      rcases Nat.lt_or_eq_of_le (Nat.lt_succ_iff.mp hi) with hlt' | rfl
      · exact hfree i hlt'
      · exact (scanBit_eq_zero buf i).mp hzero
    · next hc =>
      refine ⟨hb, hfree, ?_⟩
      by_cases hlt : b < n
      · right
        rw [← Bool.not_eq_false, ← scanBit_eq_zero]
        exact fun hzero => hc ⟨hlt, hzero⟩
      · left
        omega

theorem prefix_spec (buf : Buffer) (n : ℕ) :
    (rfsGroupPrefixSuffixFree buf n).1 ≤ n ∧
      (∀ i < (rfsGroupPrefixSuffixFree buf n).1, bit buf i = false) ∧
      ((rfsGroupPrefixSuffixFree buf n).1 = n ∨
        bit buf (rfsGroupPrefixSuffixFree buf n).1 = true) := by
  have hinv := prefixBytes_inv buf n n 0 ⟨rfl, Nat.zero_le n, by omega⟩
  rw [Nat.mul_zero] at hinv
  unfold rfsGroupPrefixSuffixFree
  dsimp only
  obtain ⟨heq, hb, hfree⟩ := hinv
  rw [heq]
  exact prefixBits_spec n _ (by omega) hb hfree

/-! ## The suffix -/

/-- A used bit that the suffix scan of a group of `n` bits does not pass over. -/
def SeenUsed (buf : Buffer) (n i : ℕ) : Prop :=
  bit buf i = true ∧ (i / 8 = 0 ∨ i / 8 = (n - 1) / 8 ∨ buf (i / 8 - 1) ≠ 0)

instance (buf : Buffer) (n i : ℕ) : Decidable (SeenUsed buf n i) := by
  unfold SeenUsed
  infer_instance

/-- What holds when the suffix scan is about to test bit `b`: it has passed no bit it can see, and
it tests bits of a byte whose used bits it can see. -/
structure SuffixInv (buf : Buffer) (n s : ℕ) (b : ℤ) : Prop where
  sum : (s : ℤ) + b = n - 1
  low : -1 ≤ b
  passed : ∀ i : ℕ, b < i → i < n → ¬ SeenUsed buf n i
  reads : 0 ≤ b → buf (b.toNat / 8) = 0 ∨
    b.toNat / 8 = 0 ∨ b.toNat / 8 = (n - 1) / 8 ∨ buf (b.toNat / 8 - 1) ≠ 0

theorem SuffixInv.seen {buf : Buffer} {n s : ℕ} {b : ℤ} (h : SuffixInv buf n s b) (h0 : 0 ≤ b)
    (hused : bit buf b.toNat = true) : SeenUsed buf n b.toNat := by
  refine ⟨hused, ?_⟩
  rcases h.reads h0 with hz | hvisible
  · rw [byte_eq_zero_iff.mp hz _ rfl] at hused
    exact absurd hused Bool.false_ne_true
  · exact hvisible

theorem suffixBytes_eq (buf : Buffer) (fuel s : ℕ) (b byteIdx : ℤ) :
    ∃ m : ℕ, suffixBytes buf fuel s b byteIdx = (s + 8 * m, b - 8 * m) ∧
      (∀ j : ℕ, byteIdx - m < j → (j : ℤ) ≤ byteIdx → buf j = 0) ∧ (m : ℤ) ≤ max 0 (byteIdx + 1) ∧
      (byteIdx + 1 ≤ fuel → 0 ≤ byteIdx - m → buf (byteIdx - m).toNat ≠ 0) := by
  induction fuel generalizing s b byteIdx with
  | zero => exact ⟨0, by simp [suffixBytes], by omega, by omega, by omega⟩
  | succ fuel ih =>
    unfold suffixBytes
    split
    · next hc =>
      obtain ⟨hpos, hzero⟩ := hc
      obtain ⟨m, hm, hbytes, hle, hstop⟩ := ih (s + 8) (b - 8) (byteIdx - 1)
      refine ⟨m + 1, ?_, fun j hj hj' => ?_, by omega, fun hf h0 => ?_⟩
      · rw [hm]
        exact Prod.ext (by dsimp only; omega) (by push_cast; omega)
      · by_cases hlast : (j : ℤ) = byteIdx
        · rwa [← hlast, Int.toNat_natCast] at hzero
        · exact hbytes j (by push_cast at hj; omega) (by omega)
      · have := hstop (by omega) (by push_cast at h0; omega)
        rwa [show byteIdx - 1 - (m : ℤ) = byteIdx - ((m + 1 : ℕ) : ℤ) by push_cast; omega] at this
    · next hc =>
      refine ⟨0, by simp, by omega, by omega, fun _ h0 hz => hc ?_⟩
      exact ⟨by omega, by simpa using hz⟩

/-- The step over a byte boundary: the zero bytes below the byte of `b` are skipped, and that byte
with them when there are any. -/
theorem SuffixInv.boundary {buf : Buffer} (fuel : ℕ) {n s : ℕ} {b : ℤ} (hsum : (s : ℤ) + b = n - 1)
    (hlow : -1 ≤ b) (hpassed : ∀ i : ℕ, b < i → i < n → ¬ SeenUsed buf n i)
    (hmod : (b + 1) % 8 = 0) (hlt : b + 1 < n) (hfuel : b + 1 ≤ fuel) :
    SuffixInv buf n (suffixBytes buf fuel s b (b / 8 - 1)).1
      (suffixBytes buf fuel s b (b / 8 - 1)).2 := by
  obtain ⟨m, hm, hbytes, hle, hstop⟩ := suffixBytes_eq buf fuel s b (b / 8 - 1)
  rw [hm]
  refine ⟨by push_cast; omega, by dsimp only; omega, fun i hi hin hseen => ?_, fun h0 => ?_⟩
  · dsimp only at hi
    by_cases hib : b < i
    · exact hpassed i hib hin hseen
    · -- a byte below the one of `b` is zero; that one has a zero predecessor
      obtain ⟨hused, hcase⟩ := hseen
      have hzero : buf (i / 8) = 0 ∨ (i / 8 = b.toNat / 8 ∧ buf (i / 8 - 1) = 0) := by
        by_cases htop : i / 8 = b.toNat / 8
        · right
          exact ⟨htop, hbytes (i / 8 - 1) (by omega) (by omega)⟩
        · left
          exact hbytes (i / 8) (by omega) (by omega)
      rcases hzero with hz | ⟨htop, hz⟩
      · rw [byte_eq_zero_iff.mp hz i rfl] at hused
        exact Bool.false_ne_true hused
      · rcases hcase with h | h | h
        · omega
        · omega
        · exact h hz
  · dsimp only at h0 ⊢
    rcases Nat.eq_zero_or_pos m with rfl | hpos
    · right
      by_cases hb : b / 8 - 1 < 0
      · left
        omega
      · right
        right
        have hne := hstop (by omega) (by omega)
        rwa [show (b / 8 - 1 - ((0 : ℕ) : ℤ)).toNat = (b - 8 * ((0 : ℕ) : ℤ)).toNat
          / 8 - 1 by omega]
          at hne
    · left
      exact hbytes ((b - 8 * (m : ℤ)).toNat / 8) (by omega) (by omega)

theorem suffixBits_spec {buf : Buffer} {n : ℕ} (fuel s : ℕ) (b : ℤ) (hfuel : b + 1 ≤ fuel)
    (h : SuffixInv buf n s b) :
    suffixBits buf fuel s b ≤ n ∧
      (∀ i, n - suffixBits buf fuel s b ≤ i → i < n → ¬ SeenUsed buf n i) ∧
      (suffixBits buf fuel s b = n ∨ SeenUsed buf n (n - suffixBits buf fuel s b - 1)) := by
  induction fuel generalizing s b with
  | zero =>
    have := h.sum
    have := h.low
    refine ⟨by unfold suffixBits; omega, fun i _ hi => h.passed i (by omega) hi, Or.inl ?_⟩
    unfold suffixBits
    omega
  | succ fuel ih =>
    have hsum := h.sum
    have hlow := h.low
    unfold suffixBits
    split
    · next hc =>
      obtain ⟨h0, hzero⟩ := hc
      have hbit : bit buf b.toNat = false := (scanBit_eq_zero _ _).mp hzero
      have hpassed : ∀ i : ℕ, b - 1 < i → i < n → ¬ SeenUsed buf n i := by
        intro i hi hin
        by_cases hib : (i : ℤ) = b
        · intro hseen
          rw [show i = b.toNat by omega] at hseen
          exact Bool.false_ne_true (hbit.symm.trans hseen.1)
        · exact h.passed i (by omega) hin
      dsimp only
      split
      · next hmod =>
        have hstep := SuffixInv.boundary fuel (s := s + 1) (b := b - 1) (n := n)
          (by push_cast; omega) (by omega) hpassed hmod (by omega) (by omega)
        obtain ⟨m, hm, -, -, -⟩ := suffixBytes_eq buf fuel (s + 1) (b - 1) ((b - 1) / 8 - 1)
        apply ih _ _ _ hstep
        rw [hm]
        dsimp only
        omega
      · next hmod =>
        apply ih (s + 1) (b - 1) (by omega)
        refine ⟨by push_cast; omega, by omega, hpassed, fun h1 => ?_⟩
        have hbyte : (b - 1).toNat / 8 = b.toNat / 8 := by omega
        rw [hbyte]
        exact h.reads h0
    · next hc =>
      refine ⟨by omega, fun i hi hin => h.passed i (by omega) hin, ?_⟩
      by_cases h0 : 0 ≤ b
      · right
        have hused : bit buf b.toNat = true := by
          rw [← Bool.not_eq_false, ← scanBit_eq_zero]
          exact fun hz => hc ⟨h0, hz⟩
        rw [show n - s - 1 = b.toNat by omega]
        exact h.seen h0 hused
      · left
        omega

theorem suffix_spec (buf : Buffer) (n : ℕ) :
    (rfsGroupPrefixSuffixFree buf n).2 ≤ n ∧
      (∀ i, n - (rfsGroupPrefixSuffixFree buf n).2 ≤ i → i < n → ¬ SeenUsed buf n i) ∧
      ((rfsGroupPrefixSuffixFree buf n).2 = n ∨
        SeenUsed buf n (n - (rfsGroupPrefixSuffixFree buf n).2 - 1)) := by
  unfold rfsGroupPrefixSuffixFree
  dsimp only
  split
  · next hn =>
    apply suffixBits_spec n 0 _ (by omega)
    refine ⟨by simp, by omega, fun i hi hin => by omega, fun _ => ?_⟩
    right
    right
    left
    congr 1
    omega
  · next hn => exact ⟨Nat.zero_le n, fun i _ hi => by omega, Or.inl (by omega)⟩

/-! ## The run search -/

theorem findRunLoop_spec {buf : Buffer} {n need : ℕ} (fuel b run runStart : ℕ)
    (hrun : run = 0 ∨ runStart + run = b) (hfree : ∀ i, b - run ≤ i → i < b → bit buf i = false)
    (hle : run ≤ b) {r : ℕ} (h : findRunLoop buf n need fuel b run runStart = some r) :
    r + need ≤ n ∧ ∀ i, r ≤ i → i < r + need → bit buf i = false := by
  induction fuel generalizing b run runStart with
  | zero => simp [findRunLoop] at h
  | succ fuel ih =>
    unfold findRunLoop at h
    split at h
    · next hlt =>
      split at h
      · next hzero =>
        have hbit : bit buf b = false := (scanBit_eq_zero buf b).mp hzero
        have hfree' : ∀ i, b + 1 - (run + 1) ≤ i → i < b + 1 → bit buf i = false := by
          intro i hi hi'
          rcases Nat.lt_or_eq_of_le (Nat.lt_succ_iff.mp hi') with hlt' | rfl
          · exact hfree i (by omega) hlt'
          · exact hbit
        have hrun' : (if run = 0 then b else runStart) + (run + 1) = b + 1 := by
          split <;> omega
        dsimp only at h
        split at h
        · next hneed =>
          obtain rfl := Option.some.inj h
          exact ⟨by omega, fun i hi hi' => hfree' i (by omega) (by omega)⟩
        · exact ih (b + 1) (run + 1) _ (Or.inr hrun') hfree' (by omega) h
      · exact ih (b + 1) 0 runStart (Or.inl rfl) (fun i hi hi' => by omega) (Nat.zero_le _) h
    · cases h

theorem findRun_spec {buf : Buffer} {n need r : ℕ}
    (h : rfsGroupFindRunFrom buf n 0 need = some r) :
    r + need ≤ n ∧ ∀ i, r ≤ i → i < r + need → bit buf i = false := by
  unfold rfsGroupFindRunFrom at h
  split at h
  · next hneed =>
    obtain rfl := Option.some.inj h
    exact ⟨by omega, fun i _ hi => by omega⟩
  · split at h
    · cases h
    · exact findRunLoop_spec n 0 0 0 (Or.inl rfl) (fun i _ hi => by omega) le_rfl h

end RetroRocket
