import Mathlib.Data.List.Basic
import RetroRocket.Bits

/-!
# Comparing names without case

`tolower` and `strcasecmp` of the kernel, for ASCII. The names are strings without their NUL.
-/

namespace RetroRocket

def tolower (low : Byte) : Byte := if 0x41 ≤ low.toNat ∧ low.toNat ≤ 0x5a then low + 32 else low

def sameName (a b : List Byte) : Bool := a.map tolower = b.map tolower

def hasSuffixIcase (str suffix : List Byte) : Bool :=
  suffix.length ≤ str.length ∧ sameName (str.drop (str.length - suffix.length)) suffix

/-- `strcasecmp(f, name) == 0`, where `f` is the memory that the first string lies in. No more of it
is read than the name and its NUL take. -/
def strcasecmp : Buffer → List Byte → Bool
  | f, [] => f 0 = 0
  | f, c :: name => f 0 ≠ 0 ∧ tolower (f 0) = tolower c ∧ strcasecmp (fun i => f (i + 1)) name

variable {f : Buffer} {name name' : List Byte}

theorem strcasecmp_congr {g : Buffer} (h : ∀ i ≤ name.length, f i = g i) :
    strcasecmp f name = strcasecmp g name := by
  induction name generalizing f g with
  | nil => rw [strcasecmp, strcasecmp, h 0 le_rfl]
  | cons c name ih =>
    rw [strcasecmp, strcasecmp, h 0 (Nat.zero_le _)]
    rw [ih fun i hi => h (i + 1) (Nat.succ_le_succ hi)]

theorem strcasecmp_ne_zero (h : strcasecmp f name = true) {i : ℕ} (hi : i < name.length) :
    f i ≠ 0 := by
  induction name generalizing f i with
  | nil => exact absurd hi (Nat.not_lt_zero i)
  | cons c name ih =>
    rw [strcasecmp, decide_eq_true_iff] at h
    cases i with
    | zero => exact h.1
    | succ i => exact ih h.2.2 (Nat.lt_of_succ_lt_succ hi)

theorem strcasecmp_sameName (h : sameName name name' = true) :
    strcasecmp f name = strcasecmp f name' := by
  have hmap : name.map tolower = name'.map tolower := of_decide_eq_true h
  clear h
  induction name generalizing f name' with
  | nil =>
    rw [List.map_nil, eq_comm, List.map_eq_nil_iff] at hmap
    rw [hmap]
  | cons c name ih =>
    cases name' with
    | nil => cases hmap
    | cons c' name' =>
      obtain ⟨hc, hmap⟩ := List.cons.inj hmap
      rw [strcasecmp, strcasecmp, hc, ih hmap]

theorem strcasecmp_self (hf : ∀ i < name.length, f i = name.getD i 0) (hend : f name.length = 0)
    (hzero : (0 : Byte) ∉ name) : strcasecmp f name = true := by
  induction name generalizing f with
  | nil => exact decide_eq_true hend
  | cons c name ih =>
    have hc : f 0 = c := hf 0 (Nat.succ_pos _)
    have hrest : strcasecmp (fun i => f (i + 1)) name = true :=
      ih (fun i hi => hf (i + 1) (Nat.succ_lt_succ hi)) hend
        fun h => hzero (List.mem_cons_of_mem c h)
    rw [strcasecmp, hc, hrest, decide_eq_true_iff]
    exact ⟨fun h => hzero (h ▸ List.mem_cons_self), rfl, rfl⟩

theorem sameName_of_strcasecmp (hf : ∀ i < name.length, f i = name.getD i 0)
    (hend : f name.length = 0)
    (hzero : (0 : Byte) ∉ name) (h : strcasecmp f name' = true) : sameName name name' = true := by
  suffices hmap : name.map tolower = name'.map tolower from decide_eq_true hmap
  induction name generalizing f name' with
  | nil =>
    cases name' with
    | nil => rfl
    | cons c' name' => exact absurd hend (strcasecmp_ne_zero h (Nat.succ_pos _))
  | cons c name ih =>
    have hc : f 0 = c := hf 0 (Nat.succ_pos _)
    cases name' with
    | nil =>
      have hnull : f 0 = 0 := of_decide_eq_true h
      exact absurd (hc.symm.trans hnull) fun h => hzero (h ▸ List.mem_cons_self)
    | cons c' name' =>
      rw [strcasecmp, decide_eq_true_iff] at h
      have hrest := ih (fun i hi => hf (i + 1) (Nat.succ_lt_succ hi)) hend
        (fun h => hzero (List.mem_cons_of_mem c h)) h.2.2
      rw [List.map_cons, List.map_cons, hrest, ← h.2.1, hc]

end RetroRocket
