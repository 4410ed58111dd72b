import RetroRocket.Bits
import Mathlib.Data.List.Pairwise
import Mathlib.Logic.Function.Basic

/-!
# Strings in a heap

Blocks of a heap are handed out and given back by their start. Nothing is known of the bytes outside
the live blocks: every call of the allocator may change them. A string stands in a block up to its
zero byte.
-/

namespace RetroRocket

def CString : Type := { t : List Byte // 0 ∉ t }

namespace CString

def length (t : CString) : ℕ := t.1.length

def stored (t : CString) : List Byte := t.1 ++ [0]

instance : EmptyCollection CString := ⟨⟨[], by simp⟩⟩

instance : Append CString := ⟨fun s t => ⟨s.1 ++ t.1, fun h => (List.mem_append.mp h).elim s.2 t.2⟩⟩

instance : DecidableEq CString := inferInstanceAs (DecidableEq { t : List Byte // 0 ∉ t })

@[simp] theorem length_append (s t : CString) : (s ++ t).length = s.length + t.length :=
  List.length_append

@[simp] theorem length_stored (t : CString) : t.stored.length = t.length + 1 := by
  simp [stored, length]

end CString

/-! ## Bytes -/

def HoldsBytes (m : ℕ → Byte) : ℕ → List Byte → Prop
  | _, [] => True
  | a, c :: cs => m a = c ∧ HoldsBytes m (a + 1) cs

instance (m : ℕ → Byte) : ∀ a cs, Decidable (HoldsBytes m a cs)
  | _, [] => inferInstanceAs (Decidable True)
  | a, c :: cs =>
    have := instDecidableHoldsBytes m (a + 1) cs
    inferInstanceAs (Decidable (m a = c ∧ HoldsBytes m (a + 1) cs))

def HoldsString (m : ℕ → Byte) (a : ℕ) (t : CString) : Prop := HoldsBytes m a t.stored

instance (m : ℕ → Byte) (a : ℕ) (t : CString) : Decidable (HoldsString m a t) :=
  inferInstanceAs (Decidable (HoldsBytes m a t.stored))

/-- `memcpy`, from the first byte on. -/
def memcpy (dst src : ℕ) : ℕ → (ℕ → Byte) → ℕ → Byte
  | 0, m => m
  | n + 1, m => memcpy (dst + 1) (src + 1) n (Function.update m dst (m src))

def writeBytes (dst : ℕ) : List Byte → (ℕ → Byte) → ℕ → Byte
  | [], m => m
  | c :: cs, m => writeBytes (dst + 1) cs (Function.update m dst c)

variable {m m' : ℕ → Byte} {a b i n dst src : ℕ} {c : Byte} {cs : List Byte} {s t : CString}

theorem HoldsBytes.congr (h : HoldsBytes m a cs)
    (hsame : ∀ i, a ≤ i → i < a + cs.length → m' i = m i) : HoldsBytes m' a cs := by
  induction cs generalizing a with
  | nil => trivial
  | cons c cs ih =>
    rw [List.length_cons] at hsame
    have hhead : m' a = m a := hsame a (Nat.le_refl a) (by omega)
    exact ⟨hhead.trans h.1, ih h.2 fun i hlow hhigh => hsame i (by omega) (by omega)⟩

theorem memcpy_of_outside (h : i < dst ∨ dst + n ≤ i) : memcpy dst src n m i = m i := by
  induction n generalizing dst src m with
  | zero => rfl
  | succ n ih =>
    rw [memcpy, ih (by omega)]
    exact Function.update_of_ne (by omega) _ _

theorem writeBytes_of_outside (h : i < dst ∨ dst + cs.length ≤ i) :
    writeBytes dst cs m i = m i := by
  induction cs generalizing dst m with
  | nil => rfl
  | cons c cs ih =>
    rw [List.length_cons] at h
    rw [writeBytes, ih (by omega)]
    exact Function.update_of_ne (by omega) _ _

theorem holdsBytes_writeBytes (m : ℕ → Byte) (dst : ℕ) (cs : List Byte) :
    HoldsBytes (writeBytes dst cs m) dst cs := by
  induction cs generalizing dst m with
  | nil => trivial
  | cons c cs ih =>
    rw [writeBytes]
    refine ⟨?_, ih _ _⟩
    rw [writeBytes_of_outside (by omega)]
    exact Function.update_self _ _ _

theorem HoldsBytes.memcpy (h : HoldsBytes m src cs)
    (hapart : src + cs.length ≤ dst ∨ dst + cs.length ≤ src) :
    HoldsBytes (memcpy dst src cs.length m) dst cs := by
  induction cs generalizing dst src m with
  | nil => trivial
  | cons c cs ih =>
    rw [List.length_cons] at hapart
    rw [List.length_cons, RetroRocket.memcpy]
    constructor
    · rw [memcpy_of_outside (by omega), Function.update_self]
      exact h.1
    · apply ih _ (by omega)
      apply h.2.congr
      intro i hlow hhigh
      exact Function.update_of_ne (by omega) _ _

theorem HoldsBytes.unique {u v : List Byte} (hu : HoldsBytes m a (u ++ [0]))
    (hv : HoldsBytes m a (v ++ [0])) (hu0 : 0 ∉ u) (hv0 : 0 ∉ v) : u = v := by
  induction u generalizing a v with
  | nil =>
    cases v with
    | nil => rfl
    | cons d v =>
      obtain rfl : d = 0 := hv.1.symm.trans hu.1
      exact absurd List.mem_cons_self hv0
  | cons c u ih =>
    cases v with
    | nil =>
      obtain rfl : c = 0 := hu.1.symm.trans hv.1
      exact absurd List.mem_cons_self hu0
    | cons d v =>
      obtain rfl : c = d := hu.1.symm.trans hv.1
      rw [List.mem_cons, not_or] at hu0 hv0
      rw [ih hu.2 hv.2 hu0.2 hv0.2]

theorem HoldsString.unique (hs : HoldsString m a s) (ht : HoldsString m a t) : s = t :=
  Subtype.ext (HoldsBytes.unique hs ht s.2 t.2)

/-! ## The allocator -/

def BlocksApart (b c : ℕ × ℕ) : Prop := b.1 + b.2 ≤ c.1 ∨ c.1 + c.2 ≤ b.1

instance : DecidableRel BlocksApart := fun b c =>
  inferInstanceAs (Decidable (b.1 + b.2 ≤ c.1 ∨ c.1 + c.2 ≤ b.1))

instance : Std.Symm BlocksApart := ⟨fun _ _ h => Or.symm h⟩

structure StringHeap where
  bytes : ℕ → Byte
  live : List (ℕ × ℕ)
  apart : live.Pairwise BlocksApart

namespace StringHeap

structure Mallocs (h : StringHeap) (n a : ℕ) (h' : StringHeap) : Prop where
  live : h'.live = (a, n) :: h.live
  kept : ∀ b ∈ h.live, ∀ i, b.1 ≤ i → i < b.1 + b.2 → h'.bytes i = h.bytes i

structure Frees (h : StringHeap) (a : ℕ) (h' : StringHeap) : Prop where
  live : h'.live = h.live.filter (·.1 ≠ a)
  kept : ∀ b ∈ h'.live, ∀ i, b.1 ≤ i → i < b.1 + b.2 → h'.bytes i = h.bytes i

end StringHeap

inductive StringRef where
  | area (t : CString)
  | block (a : ℕ)

namespace StringHeap

variable {h h' : StringHeap} {ref : StringRef}

theorem Mallocs.apart (hm : h.Mallocs n a h') : ∀ b ∈ h.live, a + n ≤ b.1 ∨ b.1 + b.2 ≤ a := by
  have hapart := h'.apart
  rw [hm.live] at hapart
  intro b hb
  exact List.rel_of_pairwise_cons hapart hb

def Reads (h : StringHeap) : StringRef → CString → Prop
  | .area t, t' => t' = t
  | .block a, t' => HoldsString h.bytes a t'

/-- The copy of `n` bytes from a pointer. -/
def copyFrom (dst n : ℕ) : StringRef → (ℕ → Byte) → ℕ → Byte
  | .area t => writeBytes dst t.stored
  | .block a => memcpy dst a n

/-- `strdup`: the length is read before the block is handed out, and the bytes after. -/
def Strdups (h : StringHeap) (ref : StringRef) (a : ℕ) (h' : StringHeap) : Prop :=
  ∃ t h₁, h.Reads ref t ∧ h.Mallocs (t.length + 1) a h₁ ∧
    h' = ⟨copyFrom a (t.length + 1) ref h₁.bytes, h₁.live, h₁.apart⟩

def Owns (h : StringHeap) (a : ℕ) (t : CString) : Prop :=
  ∃ n, (a, n) ∈ h.live ∧ t.length < n ∧ HoldsString h.bytes a t

theorem Owns.congr (ht : h.Owns a t) (hlive : ∀ n, (a, n) ∈ h.live → (a, n) ∈ h'.live)
    (hkept : ∀ n, (a, n) ∈ h.live → ∀ i, a ≤ i → i < a + n → h'.bytes i = h.bytes i) :
    h'.Owns a t := by
  obtain ⟨n, hn, hlen, hbytes⟩ := ht
  refine ⟨n, hlive n hn, hlen, hbytes.congr fun i hlow hhigh => ?_⟩
  rw [CString.length_stored] at hhigh
  exact hkept n hn i hlow (by omega)

theorem Frees.owns (hf : h.Frees b h') (ht : h.Owns a t) (hne : a ≠ b) : h'.Owns a t := by
  have hlive : ∀ n, (a, n) ∈ h.live → (a, n) ∈ h'.live := by
    intro n hn
    rw [hf.live, List.mem_filter]
    exact ⟨hn, decide_eq_true hne⟩
  exact ht.congr hlive fun n hn => hf.kept _ (hlive n hn)

theorem copyFrom_of_outside (hr : h.Reads ref t) (hi : i < a ∨ a + (t.length + 1) ≤ i) :
    copyFrom a (t.length + 1) ref m i = m i := by
  cases ref with
  | area t' =>
    obtain rfl : t = t' := hr
    apply writeBytes_of_outside
    rwa [CString.length_stored]
  | block b => exact memcpy_of_outside hi

theorem memcpy_of_lt (hi : i < n) (hlt : src + i < dst) :
    memcpy dst src n m (dst + i) = m (src + i) := by
  induction n generalizing dst src i m with
  | zero => omega
  | succ n ih =>
    rw [memcpy]
    cases i with
    | zero =>
      rw [memcpy_of_outside (by omega)]
      exact Function.update_self _ _ _
    | succ i =>
      have hdst : dst + (i + 1) = dst + 1 + i := by omega
      have hsrc : src + (i + 1) = src + 1 + i := by omega
      rw [hdst, hsrc, ih (by omega) (by omega)]
      exact Function.update_of_ne (by omega) _ _

theorem holdsString_copyFrom (hr : (⟨m, h.live, h.apart⟩ : StringHeap).Reads ref t)
    (hapart : ∀ b, ref = .block b → b + (t.length + 1) ≤ a ∨ a + (t.length + 1) ≤ b) :
    HoldsString (copyFrom a (t.length + 1) ref m) a t := by
  cases ref with
  | area t' =>
    obtain rfl : t = t' := hr
    exact holdsBytes_writeBytes m a t.stored
  | block b =>
    have hb : HoldsBytes m b t.stored := hr
    have hcopy := hb.memcpy (by simpa using hapart b rfl)
    rwa [CString.length_stored] at hcopy

theorem Strdups.owns (hd : h.Strdups ref b h') (ht : h.Owns a t) : h'.Owns a t := by
  obtain ⟨t', h₁, hr, hm, rfl⟩ := hd
  apply ht.congr
  · intro n hn
    rw [hm.live]
    exact List.mem_cons_of_mem _ hn
  · intro n hn i hlow hhigh
    have hapart := hm.apart _ hn
    have hcopy :=
      copyFrom_of_outside (m := h₁.bytes) hr (show i < b ∨ b + (t'.length + 1) ≤ i by omega)
    exact hcopy.trans (hm.kept _ hn i hlow hhigh)

theorem Strdups.ne (hd : h.Strdups ref b h') (ht : h.Owns a t) : a ≠ b := by
  obtain ⟨t', h₁, -, hm, -⟩ := hd
  obtain ⟨n, hn, hlen, -⟩ := ht
  have hapart := hm.apart _ hn
  omega

theorem Strdups.owns_area (hd : h.Strdups (.area t) a h') : h'.Owns a t := by
  obtain ⟨t', h₁, hr, hm, rfl⟩ := hd
  obtain rfl : t' = t := hr
  refine ⟨t'.length + 1, ?_, Nat.lt_succ_self _, ?_⟩
  · rw [hm.live]
    exact List.mem_cons_self
  · have hr : (⟨h₁.bytes, h.live, h.apart⟩ : StringHeap).Reads (.area t') t' := rfl
    apply holdsString_copyFrom hr
    rintro b ⟨⟩

theorem Strdups.owns_block (hd : h.Strdups (.block b) a h') (ht : h.Owns b t) : h'.Owns a t := by
  obtain ⟨t', h₁, hr, hm, rfl⟩ := hd
  obtain ⟨n, hn, hlen, hbytes⟩ := ht
  obtain rfl : t = t' := hbytes.unique hr
  refine ⟨t.length + 1, ?_, Nat.lt_succ_self _, ?_⟩
  · rw [hm.live]
    exact List.mem_cons_self
  · have hkept : (⟨h₁.bytes, h.live, h.apart⟩ : StringHeap).Reads (.block b) t := by
      apply HoldsBytes.congr hbytes
      intro i hlow hhigh
      rw [CString.length_stored] at hhigh
      exact hm.kept _ hn i hlow (by omega)
    apply holdsString_copyFrom hkept
    rintro _ ⟨⟩
    have hapart := hm.apart _ hn
    omega

/-! ## Blocks that are not handed out again -/

theorem HoldsString.end_eq (h : HoldsString m a t) : m (a + t.length) = 0 := by
  obtain ⟨t, ht⟩ := t
  change HoldsBytes m a (t ++ [0]) at h
  change m (a + t.length) = 0
  clear ht
  induction t generalizing a with
  | nil => exact h.1
  | cons c t ih =>
    rw [List.length_cons, Nat.add_comm t.length 1, ← Nat.add_assoc]
    exact ih h.2

theorem HoldsString.ne_zero (h : HoldsString m a t) (hi : i < t.length) : m (a + i) ≠ 0 := by
  obtain ⟨t, ht⟩ := t
  change HoldsBytes m a (t ++ [0]) at h
  change i < t.length at hi
  induction t generalizing a i with
  | nil => exact absurd hi (Nat.not_lt_zero i)
  | cons c t ih =>
    rw [List.mem_cons, not_or] at ht
    cases i with
    | zero =>
      rw [Nat.add_zero, h.1]
      exact Ne.symm ht.1
    | succ i =>
      rw [Nat.add_comm i 1, ← Nat.add_assoc]
      exact ih ht.2 h.2 (Nat.lt_of_succ_lt_succ hi)

theorem exists_holdsString {k : ℕ} (hk : m (a + k) = 0) : ∃ t, HoldsString m a t := by
  induction k generalizing a with
  | zero => exact ⟨∅, hk, trivial⟩
  | succ k ih =>
    by_cases ha : m a = 0
    · exact ⟨∅, ha, trivial⟩
    · obtain ⟨t, ht⟩ := ih (a := a + 1) (by rwa [Nat.add_assoc, Nat.add_comm 1 k])
      have hzero : 0 ∉ m a :: t.1 := by
        rw [List.mem_cons, not_or]
        exact ⟨Ne.symm ha, t.2⟩
      exact ⟨⟨m a :: t.1, hzero⟩, rfl, ht⟩

def inLive (h : StringHeap) (i : ℕ) : Bool := h.live.any fun b => b.1 ≤ i ∧ i < b.1 + b.2

theorem inLive_of_mem {b : ℕ × ℕ} (hb : b ∈ h.live) (hlow : b.1 ≤ i) (hhigh : i < b.1 + b.2) :
    h.inLive i = true :=
  List.any_eq_true.mpr ⟨b, hb, decide_eq_true ⟨hlow, hhigh⟩⟩

theorem inLive_eq_false_iff : h.inLive i = false ↔ ∀ b ∈ h.live, i < b.1 ∨ b.1 + b.2 ≤ i := by
  simp only [inLive, List.any_eq_false, decide_eq_true_eq, not_and_or, not_le, not_lt]

/-- Below a limit every byte outside the live blocks is a one, and behind it all bytes are zero. -/
structure Filled (h : StringHeap) (limit : ℕ) : Prop where
  live : ∀ b ∈ h.live, b.1 + b.2 ≤ limit
  free : ∀ i < limit, h.inLive i = false → h.bytes i = 1
  behind : ∀ i, limit ≤ i → h.bytes i = 0

def fill (h : StringHeap) (limit : ℕ) : StringHeap :=
  { h with bytes := fun i => if h.inLive i then h.bytes i else if i < limit then 1 else 0 }

theorem fill_bytes_of_mem {limit : ℕ} {b : ℕ × ℕ} (hb : b ∈ h.live) (hlow : b.1 ≤ i)
    (hhigh : i < b.1 + b.2) : (h.fill limit).bytes i = h.bytes i :=
  if_pos (inLive_of_mem hb hlow hhigh)

theorem filled_fill {limit : ℕ} (hlimit : ∀ b ∈ h.live, b.1 + b.2 ≤ limit) :
    (h.fill limit).Filled limit where
  live := hlimit
  free i hi hfree := by
    have hfree : h.inLive i = false := hfree
    simp [fill, hfree, hi]
  behind i hi := by
    have hfree : h.inLive i = false :=
      inLive_eq_false_iff.mpr fun b hb => Or.inr ((hlimit b hb).trans hi)
    simp [fill, hfree, Nat.not_lt.mpr hi]

theorem exists_limit (h : StringHeap) : ∃ limit, ∀ b ∈ h.live, b.1 + b.2 ≤ limit := by
  induction h.live with
  | nil => exact ⟨0, fun b hb => by cases hb⟩
  | cons b bs ih =>
    obtain ⟨limit, hlimit⟩ := ih
    refine ⟨max (b.1 + b.2) limit, fun c hc => ?_⟩
    rcases List.mem_cons.mp hc with rfl | hc
    · exact Nat.le_max_left _ _
    · exact (hlimit c hc).trans (Nat.le_max_right _ _)

def Buried (h : StringHeap) (limit a n : ℕ) : Prop :=
  a + n ≤ limit ∧ ∀ b ∈ h.live, BlocksApart (a, n) b

variable {limit k : ℕ}

theorem Buried.exists_reads (hb : h.Buried limit a n) (hf : h.Filled limit) :
    ∃ t, h.Reads (.block a) t ∧ n ≤ t.length := by
  obtain ⟨t, ht⟩ : ∃ t, HoldsString h.bytes a t :=
    exists_holdsString (k := limit) (hf.behind (a + limit) (Nat.le_add_left _ _))
  refine ⟨t, ht, ?_⟩
  by_contra hshort
  have hend : h.bytes (a + t.length) = 0 := HoldsString.end_eq ht
  have hfree : h.inLive (a + t.length) = false := by
    rw [inLive_eq_false_iff]
    intro b hmem
    have hapart : a + n ≤ b.1 ∨ b.1 + b.2 ≤ a := hb.2 b hmem
    omega
  have hone := hf.free _ (by have := hb.1; omega) hfree
  rw [hend] at hone
  cases hone

theorem Buried.mono (hb : h.Buried limit a n) (hk : k ≤ n) : h.Buried limit a k := by
  refine ⟨by have := hb.1; omega, fun b hmem => ?_⟩
  have hapart : a + n ≤ b.1 ∨ b.1 + b.2 ≤ a := hb.2 b hmem
  exact hapart.imp (fun h => by dsimp only; omega) id

theorem Filled.exists_frees (hf : h.Filled limit) (a : ℕ) : ∃ h', h.Frees a h' ∧ h'.Filled limit ∧
    (∀ b n, h.Buried limit b n → h'.Buried limit b n) ∧
    ∀ n, 0 < n → (a, n) ∈ h.live → h'.Buried limit a n := by
  let rest : StringHeap := ⟨h.bytes, h.live.filter (·.1 ≠ a), h.apart.filter _⟩
  have hsub : ∀ b ∈ rest.live, b ∈ h.live := fun b hb => List.mem_of_mem_filter hb
  refine ⟨rest.fill limit, ⟨rfl, fun b hb i hlow hhigh => fill_bytes_of_mem hb hlow hhigh⟩,
    filled_fill fun b hb => hf.live b (hsub b hb), ?_, ?_⟩
  · intro b n hb
    exact ⟨hb.1, fun c hc => hb.2 c (hsub c hc)⟩
  · intro n hpos hn
    refine ⟨hf.live _ hn, fun c hc => ?_⟩
    have hne : c.1 ≠ a := of_decide_eq_true (List.mem_filter.mp hc).2
    have hdistinct : (a, n) ≠ c := fun heq => hne (congrArg Prod.fst heq).symm
    exact h.apart.forall hn (hsub c hc) hdistinct

theorem Filled.exists_strdups (hf : h.Filled limit) (hread : h.Reads ref t) :
    ∃ h', h.Strdups ref limit h' ∧ h'.bytes = copyFrom limit (t.length + 1) ref h.bytes ∧
      h'.Filled (limit + (t.length + 1)) ∧
      ∀ b n, h.Buried limit b n → h'.Buried (limit + (t.length + 1)) b n := by
  let new : StringHeap := ⟨h.bytes, (limit, t.length + 1) :: h.live, by
    rw [List.pairwise_cons]
    exact ⟨fun b hb => Or.inr (hf.live b hb), h.apart⟩⟩
  have hm : h.Mallocs (t.length + 1) limit new := ⟨rfl, fun _ _ _ _ _ => rfl⟩
  refine ⟨_, ⟨t, new, hread, hm, rfl⟩, rfl, ⟨?_, ?_, ?_⟩, ?_⟩
  · intro b hb
    rcases List.mem_cons.mp hb with rfl | hb
    · exact Nat.le_refl _
    · exact (hf.live b hb).trans (Nat.le_add_right _ _)
  · intro i hi hfree
    rw [inLive_eq_false_iff] at hfree
    have hnew : i < limit ∨ limit + (t.length + 1) ≤ i := hfree _ List.mem_cons_self
    have hcopy := copyFrom_of_outside (m := h.bytes) hread hnew
    refine hcopy.trans (hf.free i (by omega) (inLive_eq_false_iff.mpr fun b hb => ?_))
    exact hfree b (List.mem_cons_of_mem _ hb)
  · intro i hi
    have hcopy := copyFrom_of_outside (m := h.bytes) hread (Or.inr hi)
    exact hcopy.trans (hf.behind i (by omega))
  · intro b n hb
    refine ⟨hb.1.trans (Nat.le_add_right _ _), fun c hc => ?_⟩
    rcases List.mem_cons.mp hc with rfl | hc
    · exact Or.inl hb.1
    · exact hb.2 c hc

theorem Filled.exists_copy (hf : h.Filled limit) (hb : h.Buried limit a n) :
    ∃ h', h.Strdups (.block a) limit h' ∧ ∀ t, h'.Reads (.block limit) t → n ≤ t.length := by
  obtain ⟨u, hread, hlong⟩ := hb.exists_reads hf
  obtain ⟨h', hdup, hbytes, -, -⟩ := hf.exists_strdups hread
  refine ⟨h', hdup, fun t ht => ?_⟩
  by_contra hshort
  have hend : h'.bytes (limit + t.length) = 0 := HoldsString.end_eq ht
  have hlow := hb.1
  have hcopy : h'.bytes (limit + t.length) = h.bytes (a + t.length) := by
    rw [hbytes]
    exact memcpy_of_lt (by omega) (by omega)
  exact HoldsString.ne_zero hread (show t.length < u.length by omega) (hcopy.symm.trans hend)

end StringHeap

end RetroRocket
