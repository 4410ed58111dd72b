import RetroRocket.ModSafety

/-!
# The output of the MOD player

A song is rendered block by block until it has ended. What comes out is what one long block would
be: the frames of a block depend only on the state in which it starts, and each of them adds one
frame of two 16-bit samples.
-/

namespace RetroRocket

namespace Guarded

variable {α τ σ : Type}

theorem test_eq_ok {p : Prop} [Decidable p] {u : Unit} : test p = ok u ↔ p := by
  unfold test
  split <;> simp [*]

theorem access_eq_ok {p : Prop} [Decidable p] {u : Unit} : access p = ok u ↔ p := by
  unfold access
  split <;> simp [*]

theorem loop_add (f : σ → Guarded σ) (s : σ) (m n : ℕ) :
    loop (fun s _ => f s) s (m + n) = loop (fun s _ => f s) s m >>= fun s =>
      loop (fun s _ => f s) s n := by
  induction n with
  | zero => cases h : loop (fun s _ => f s) s m <;> rfl
  | succ n ih =>
    rw [← Nat.add_assoc, loop, ih, bind_assoc]
    rfl

theorem loop_append {f : τ × List α → Guarded (τ × List α)}
    (hf : ∀ s out, f (s, out) = f (s, []) >>= fun r => ok (r.1, out ++ r.2)) (s : τ)
    (out : List α) (n : ℕ) :
    loop (fun r _ => f r) (s, out) n =
      loop (fun r _ => f r) (s, []) n >>= fun r => ok (r.1, out ++ r.2) := by
  induction n with
  | zero => simp [loop]
  | succ n ih =>
    rw [loop, ih, loop, bind_assoc, bind_assoc]
    congr 1
    funext r
    rw [ok_bind, hf, hf r.1 r.2, bind_assoc]
    congr 1
    funext q
    rw [ok_bind, List.append_assoc]

end Guarded

namespace ModSong

open Guarded

variable {song : ModSong} {st t : ModState} {out pcm : List (ℤ × ℤ)} {j k n want limit : ℕ}
  {memory : ℕ → Bool}

/-! ## Frames -/

theorem mixFrame_append (song : ModSong) (major minor : ℤ) (st : ModState) (out : List (ℤ × ℤ)) :
    song.mixFrame major minor (st, out) =
      song.mixFrame major minor (st, []) >>= fun r => ok (r.1, out ++ r.2) := by
  unfold mixFrame
  dsimp only
  rw [bind_assoc]
  congr 1
  funext st
  rw [bind_assoc]
  rfl

theorem mixBlock_add (song : ModSong) (st : ModState) (m n : ℕ) :
    song.mixBlock st (m + n) = song.mixBlock st m >>= fun r =>
      song.mixBlock r.1 n >>= fun q => ok (q.1, r.2 ++ q.2) := by
  obtain ⟨major, minor, heq⟩ := mixBlock_eq song
  simp only [heq]
  rw [loop_add]
  congr 1
  funext r
  exact loop_append (mixFrame_append song major minor) r.1 r.2 n

def IsSample (x : ℤ) : Prop := -32768 ≤ x ∧ x ≤ 32767

theorem isSample_clampSample (acc : ℤ) : IsSample (clampSample acc) := by
  unfold clampSample IsSample
  omega

theorem mixBlock_frames (h : song.mixBlock st n = ok (t, out)) :
    out.length = n ∧ ∀ f ∈ out, IsSample f.1 ∧ IsSample f.2 := by
  obtain ⟨major, minor, heq⟩ := mixBlock_eq song
  rw [heq] at h
  induction n generalizing t out with
  | zero =>
    obtain ⟨-, rfl⟩ := Prod.mk.inj (Guarded.ok.inj h)
    exact ⟨rfl, by simp⟩
  | succ n ih =>
    obtain ⟨⟨u, front⟩, hfront, hframe⟩ := bind_eq_ok.mp h
    obtain ⟨hlength, hsamples⟩ := ih hfront
    obtain ⟨v, -, hframe⟩ := bind_eq_ok.mp hframe
    obtain ⟨mix, -, hframe⟩ := bind_eq_ok.mp hframe
    obtain ⟨-, rfl⟩ := Prod.mk.inj (Guarded.ok.inj hframe)
    refine ⟨by rw [List.length_append, hlength, List.length_singleton], fun f hf => ?_⟩
    rcases List.mem_append.mp hf with hf | hf
    · exact hsamples f hf
    · rw [List.mem_singleton.mp hf]
      exact ⟨isSample_clampSample _, isSample_clampSample _⟩

/-! ## Rendering -/

/-- `new_cap`, if there is not room for `need` frames. -/
def grownCap (cap need : ℕ) : ℕ :=
  if cap < need then if cap * 2 < need then need else cap * 2 else cap

/-- The loop of `mod_from_memory`, for blocks of `want` frames and `limit` frames at most. `memory`
tells which requests for so many bytes are granted. -/
def renderLoop (song : ModSong) (memory : ℕ → Bool) (want limit : ℕ) :
    ℕ → ModState → ℕ → List (ℤ × ℤ) → Guarded (List (ℤ × ℤ))
  | 0, _, _, _ => .outside
  | fuel + 1, st, cap, pcm =>
    if st.ended ∨ limit ≤ pcm.length then return pcm
    else do
      let grown := grownCap cap (pcm.length + want)
      .test (cap < pcm.length + want → memory (grown * 4))
      let (st, out) ← song.mixBlock st want
      .access (pcm.length + out.length ≤ grown)
      renderLoop song memory want limit fuel st grown (pcm ++ out)

def blockFrames : ℕ := 2 ^ 24

def maxTotalFrames : ℕ := ModState.samplerate * 60 * 30

/-- `mod_from_memory`, with the frames that it renders. -/
def modFromMemory (memory : ℕ → Bool) (name file : List Byte) : Guarded (List (ℤ × ℤ)) :=
  match parseAndInit name file with
  | none => .rejected
  | some song => do
    .test (memory (blockFrames * 4))
    let pcm ← song.renderLoop memory blockFrames maxTotalFrames
      (maxTotalFrames + 1) ModState.initial
      blockFrames []
    .test (pcm.length ≠ 0)
    return pcm

/-- The first `j` blocks of a song. -/
def blocks (song : ModSong) (want j : ℕ) : Guarded (ModState × List (ℤ × ℤ)) :=
  song.mixBlock ModState.initial (j * want)

/-- The room that there is for the first `j` blocks. -/
def capacity (want : ℕ) : ℕ → ℕ
  | 0 => want
  | j + 1 => grownCap (capacity want j) ((j + 1) * want)

/-- From block `j` on the song is played up to block `k`, where it has ended or the limit is
reached. -/
structure PlaysTo (song : ModSong) (memory : ℕ → Bool) (want limit j k : ℕ) (t : ModState) :
    Prop where
  le : j ≤ k
  ends : t.ended ∨ limit ≤ k * want
  goesOn : ∀ i, j ≤ i → i < k → i * want < limit ∧
    ∀ s out, song.blocks want i = .ok (s, out) → s.ended = false
  memory : ∀ i, j ≤ i → i ≤ k → memory (capacity want i * 4)

theorem blocks_add (h : song.blocks want j = ok (st, pcm)) (n : ℕ) :
    song.blocks want (j + n) = song.mixBlock st (n * want) >>= fun q => ok (q.1, pcm ++ q.2) := by
  unfold blocks at *
  rw [Nat.add_mul, mixBlock_add, h]
  rfl

theorem blocks_succ (h : song.blocks want j = ok (st, pcm)) :
    song.blocks want (j + 1) = song.mixBlock st want >>= fun q => ok (q.1, pcm ++ q.2) := by
  have hadd := blocks_add h 1
  rwa [Nat.one_mul] at hadd

theorem exists_mixBlock_of_lt (h : song.blocks want j = ok (st, pcm)) (hjk : j < k)
    (hk : song.blocks want k = ok (t, out)) : ∃ u front, song.mixBlock st want = ok (u, front) := by
  obtain ⟨n, rfl⟩ := Nat.exists_eq_add_of_lt hjk
  rw [Nat.add_assoc, blocks_add h, Nat.add_mul, Nat.one_mul, Nat.add_comm, mixBlock_add] at hk
  obtain ⟨r, hr, -⟩ := bind_eq_ok.mp hk
  obtain ⟨⟨u, front⟩, hu, -⟩ := bind_eq_ok.mp hr
  exact ⟨u, front, hu⟩

theorem le_grownCap (cap need : ℕ) : need ≤ grownCap cap need := by
  unfold grownCap
  split
  · split <;> omega
  · omega

theorem renderLoop_eq_ok {fuel : ℕ} (hblocks : song.blocks want j = ok (st, pcm)) (hwant : 0 < want)
    (hpos : 0 < fuel) (hfuel : limit < j * want + fuel) (hmem : memory (capacity want j * 4)) :
    song.renderLoop memory want limit fuel st (capacity want j) pcm = ok out ↔
      ∃ k t, song.blocks want k = ok (t, out) ∧ song.PlaysTo memory want limit j k t := by
  induction fuel generalizing j st pcm with
  | zero => exact absurd hpos (lt_irrefl 0)
  | succ fuel ih =>
    have hlength : pcm.length = j * want := (mixBlock_frames hblocks).1
    rw [renderLoop, hlength]
    by_cases hstop : st.ended ∨ limit ≤ j * want
    · rw [if_pos hstop]
      constructor
      · intro h
        obtain rfl := Guarded.ok.inj h
        exact ⟨j, st, hblocks, le_rfl, hstop, fun i hi hlt =>
          absurd (hi.trans_lt hlt) (lt_irrefl j),
          fun i hi hle => hi.antisymm hle ▸ hmem⟩
      · rintro ⟨k, t, hk, hplays⟩
        obtain rfl : j = k := by
          refine hplays.le.antisymm (not_lt.mp fun hlt => ?_)
          obtain ⟨hlimit, hgoes⟩ := hplays.goesOn j le_rfl hlt
          rcases hstop with hended | hreached
          · exact Bool.false_ne_true ((hgoes _ _ hblocks).symm.trans hended)
          · exact absurd hlimit (not_lt.mpr hreached)
        rw [hblocks] at hk
        obtain ⟨-, rfl⟩ := Prod.mk.inj (Guarded.ok.inj hk)
        rfl
    · rw [if_neg hstop]
      rw [not_or, not_le] at hstop
      obtain ⟨hgoes, hlimit⟩ := hstop
      have hgrown : grownCap (capacity want j) (j * want + want) = capacity want (j + 1) := by
        rw [capacity, Nat.succ_mul]
      have hnextFuel : 0 < fuel ∧ limit < (j + 1) * want + fuel := by
        rw [Nat.succ_mul]
        omega
      dsimp only
      rw [hgrown]
      constructor
      · intro h
        obtain ⟨_, htest, h⟩ := bind_eq_ok.mp h
        obtain ⟨⟨u, front⟩, hmix, h⟩ := bind_eq_ok.mp h
        obtain ⟨-, -, h⟩ := bind_eq_ok.mp h
        have hnext : song.blocks want (j + 1) = ok (u, pcm ++ front) := by
          rw [blocks_succ hblocks, hmix]
          rfl
        have hmem' : memory (capacity want (j + 1) * 4) := by
          by_cases hlt : capacity want j < j * want + want
          · exact test_eq_ok.mp htest hlt
          · rw [← hgrown, grownCap, if_neg hlt]
            exact hmem
        obtain ⟨k, t, hk, hplays⟩ := (ih hnext hnextFuel.1 hnextFuel.2 hmem').mp h
        refine ⟨k, t, hk, Nat.le_of_succ_le hplays.le, hplays.ends, fun i hi hlt => ?_,
          fun i hi hle => ?_⟩
        · rcases hi.eq_or_lt with rfl | hi
          · refine ⟨hlimit, fun s o hs => ?_⟩
            rw [hblocks] at hs
            obtain ⟨rfl, -⟩ := Prod.mk.inj (Guarded.ok.inj hs)
            exact Bool.eq_false_iff.mpr hgoes
          · exact hplays.goesOn i hi hlt
        · rcases hi.eq_or_lt with rfl | hi
          · exact hmem
          · exact hplays.memory i hi hle
      · rintro ⟨k, t, hk, hplays⟩
        have hjk : j < k := by
          refine hplays.le.lt_of_ne ?_
          rintro rfl
          rw [hblocks] at hk
          obtain ⟨rfl, -⟩ := Prod.mk.inj (Guarded.ok.inj hk)
          exact hplays.ends.elim hgoes (not_le.mpr hlimit)
        obtain ⟨u, front, hmix⟩ := exists_mixBlock_of_lt hblocks hjk hk
        have hnext : song.blocks want (j + 1) = ok (u, pcm ++ front) := by
          rw [blocks_succ hblocks, hmix]
          rfl
        have hmem' := hplays.memory (j + 1) (Nat.le_succ j) hjk
        have hfits : j * want + front.length ≤ capacity want (j + 1) := by
          rw [(mixBlock_frames hmix).1, ← hgrown]
          exact le_grownCap _ _
        have hrest := (ih hnext hnextFuel.1 hnextFuel.2 hmem').mpr ⟨k, t, hk, hjk, hplays.ends,
          fun i hi => hplays.goesOn i (Nat.le_of_succ_le hi),
          fun i hi => hplays.memory i (Nat.le_of_succ_le hi)⟩
        refine bind_eq_ok.mpr ⟨(), test_eq_ok.mpr fun _ => hmem', ?_⟩
        refine bind_eq_ok.mpr ⟨(u, front), hmix, ?_⟩
        exact bind_eq_ok.mpr ⟨(), access_eq_ok.mpr hfits, hrest⟩

/-- A file is rendered just if it is taken, its blocks can be played until it has ended or there are
enough, and there is memory. What is put out is what one block of all the frames would put out. -/
theorem modFromMemory_eq_ok (memory : ℕ → Bool) (name file : List Byte) (pcm : List (ℤ × ℤ)) :
    modFromMemory memory name file = ok pcm ↔ ∃ song k st, parseAndInit name file = some song ∧
      song.mixBlock ModState.initial (k * blockFrames) = ok (st, pcm) ∧
        song.PlaysTo memory blockFrames maxTotalFrames 0 k st := by
  have hwant : 0 < blockFrames := Nat.two_pow_pos 24
  have hlimit : 0 < maxTotalFrames := by decide
  have hfuel : maxTotalFrames < 0 * blockFrames + (maxTotalFrames + 1) := by omega
  unfold modFromMemory
  generalize blockFrames = want at *
  generalize maxTotalFrames = limit at *
  cases hparse : parseAndInit name file with
  | none => simp
  | some song =>
    have hzero : song.blocks want 0 = ok (ModState.initial, []) := by
      obtain ⟨major, minor, heq⟩ := mixBlock_eq song
      unfold blocks
      rw [heq, Nat.zero_mul]
      rfl
    constructor
    · intro h
      obtain ⟨_, htest, h⟩ := bind_eq_ok.mp h
      obtain ⟨out, hrender, h⟩ := bind_eq_ok.mp h
      obtain ⟨-, -, h⟩ := bind_eq_ok.mp h
      obtain rfl := Guarded.ok.inj h
      obtain ⟨k, st, hk, hplays⟩ := (renderLoop_eq_ok hzero hwant (Nat.succ_pos _) hfuel
        (test_eq_ok.mp htest)).mp hrender
      exact ⟨song, k, st, rfl, hk, hplays⟩
    · rintro ⟨song', k, st, hsong, hk, hplays⟩
      obtain rfl := Option.some.inj hsong
      have hmem : memory (want * 4) := hplays.memory 0 le_rfl hplays.le
      have hlength : pcm.length ≠ 0 := by
        rw [(mixBlock_frames hk).1]
        intro hnone
        obtain rfl : k = 0 := (Nat.mul_eq_zero.mp hnone).resolve_right hwant.ne'
        rw [show song.mixBlock ModState.initial (0 * want) = song.blocks want 0 from rfl,
          hzero] at hk
        obtain ⟨rfl, -⟩ := Prod.mk.inj (Guarded.ok.inj hk)
        exact hplays.ends.elim Bool.false_ne_true fun hle => by omega
      have hrender :=
        (renderLoop_eq_ok hzero hwant (Nat.succ_pos _) hfuel hmem).mpr ⟨k, st, hk, hplays⟩
      refine bind_eq_ok.mpr ⟨(), test_eq_ok.mpr hmem, ?_⟩
      refine bind_eq_ok.mpr ⟨pcm, hrender, ?_⟩
      exact bind_eq_ok.mpr ⟨(), test_eq_ok.mpr hlength, rfl⟩

end ModSong

end RetroRocket
