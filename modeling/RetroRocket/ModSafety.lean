import RetroRocket.ModPlayer

/-!
# When the MOD player is safe

A tick with the effect `E90` divides by 0, unless it is the first of its row, and a break `D5E` or
`D5F` leads to row 64 or 65, behind the end of the pattern. A song whose ticks do without both is
played without a wrong access for as long as one likes.
-/

namespace RetroRocket

open Guarded

namespace ModSong

variable {song : ModSong} {st s : ModState} {c : TrackerCh} {g : ModChannel} {P Q : ℕ → Prop}
  {i row order ptr last fuel : ℕ}

/-! ## Songs -/

structure Sound (song : ModSong) : Prop where
  orders_pos : 0 < song.orders
  header : 1084 ≤ song.file.length
  patterns : ∀ o < song.orders, song.pattern o < song.maxPattern
  region : song.patternData + song.maxPattern * 64 * song.channels * 4 ≤ song.file.length
  loops : ∀ k, (song.samples k).loopLen ≤ (song.samples k).actualLen
  inside : ∀ k d, (song.samples k).data = some d → d + (song.samples k).actualLen ≤ song.file.length

theorem le_maxpat (file : List Byte) (orderTable : ℕ) {o n : ℕ} (h : o < n) :
    fileByte file (orderTable + o) ≤ maxpat file orderTable n := by
  induction n with
  | zero => exact absurd h (Nat.not_lt_zero o)
  | succ n ih =>
    rw [maxpat]
    by_cases hlast : o = n
    · rw [hlast]
      exact le_max_right _ _
    · exact (ih (by omega)).trans (le_max_left _ _)

theorem sampleOf_loopLen_le (file : List Byte) (start k : ℕ) :
    (sampleOf file start k).loopLen ≤ (sampleOf file start k).actualLen := by
  unfold sampleOf
  dsimp only
  split <;> omega

theorem sound_of_parse {name file : List Byte} (h : parseAndInit name file = some song) :
    song.Sound := by
  unfold parseAndInit at h
  dsimp only at h
  obtain ⟨hlen, h⟩ := Option.ite_none_left_eq_some.mp h
  obtain ⟨-, h⟩ := Option.ite_none_left_eq_some.mp h
  obtain ⟨-, h⟩ := Option.ite_none_left_eq_some.mp h
  obtain ⟨horders, h⟩ := Option.ite_none_left_eq_some.mp h
  obtain ⟨hregion, h⟩ := Option.ite_none_left_eq_some.mp h
  obtain ⟨hsamples, h⟩ := Option.ite_none_right_eq_some.mp h
  obtain rfl := Option.some.inj h
  generalize (if (isModSignature (readU32Be file 1080)).isNone then 15 else 31) = count at hsamples
  refine ⟨by dsimp only; omega, by dsimp only; omega, ?_, by dsimp only; omega, fun k => ?_,
    fun k d hd => ?_⟩
  · exact fun o ho => Nat.lt_succ_of_le (le_maxpat _ _ (by dsimp only at ho; omega))
  · by_cases hk : k < count
    · simp only [if_pos hk]
      exact sampleOf_loopLen_le _ _ _
    · simp only [if_neg hk]
      exact le_rfl
  · by_cases hk : k < count
    · simp only [if_pos hk] at hd ⊢
      obtain rfl := Option.some.inj hd
      exact hsamples k hk
    · simp only [if_neg hk] at hd
      cases hd

theorem Sound.hasCell (h : song.Sound) (hrow : row < 64) (horder : order < song.orders)
    (hi : i < song.channels) : song.HasCell order row i := by
  have hpattern := h.patterns order horder
  have hregion := h.region
  have hrows : row + 64 * song.pattern order + 1 ≤ song.maxPattern * 64 := by omega
  have hmul := Nat.mul_le_mul_left song.channels hrows
  rw [Nat.mul_succ] at hmul
  have hinside : song.cellAt order row i + 4 ≤
      song.patternData + song.maxPattern * 64 * song.channels * 4 := by
    unfold cellAt
    rw [Nat.mul_comm (song.maxPattern * 64)]
    omega
  exact ⟨hrow, horder, hpattern, hinside, hinside.trans hregion⟩

/-! ## States -/

structure ChSound (song : ModSong) (c : TrackerCh) : Prop where
  idx : c.sampleIdx < 31
  sample : ∀ d, c.gen.sample = some d →
    ∃ k < 31, song.samples k = ⟨some d, c.gen.length, c.gen.loopLength⟩

/-- The state is one that the song can be played on from. The row to skip to is in `P`. -/
structure StateSound (song : ModSong) (P : ℕ → Prop) (st : ModState) : Prop where
  order : st.order < song.orders
  row : st.row < 64
  req : ∀ o, st.skipOrderReq = some o → o < song.orders
  dest : P st.skipOrderDestRow
  loopRow : st.patLoopRow < 64
  speed : st.speed ≠ 0
  ch : ∀ k, song.ChSound (st.ch k)

def SameRow (st s : ModState) : Prop := s.order = st.order ∧ s.row = st.row ∧ s.tick = st.tick

theorem StateSound.setCh (h : song.StateSound P st) (hc : song.ChSound c) :
    song.StateSound P (st.setCh i c) := by
  refine { h with ch := fun k => ?_ }
  unfold ModState.setCh
  dsimp only
  split
  · exact hc
  · exact h.ch k

theorem StateSound.setAudioTick (h : song.StateSound P st) (audioTick : ℕ) :
    song.StateSound P { st with audioTick } :=
  { h with }

theorem initial_sound (h : song.Sound) : song.StateSound (· < 64) ModState.initial where
  order := h.orders_pos
  row := by decide
  req o ho := by
    obtain rfl := Option.some.inj ho
    exact h.orders_pos
  dest := by decide
  loopRow := by decide
  speed := by decide
  ch _ := ⟨(by decide : 0 < 31), fun d hd => by cases hd⟩

/-! ## Rows -/

def Overshoots (cell : ModCell) : Prop := cell.eff = 0xD ∧ (cell.effval = 0x5E ∨ cell.effval = 0x5F)

def Lands (cell : ModCell) : Prop := cell.eff = 0xD ∧ ¬ (cell.effval = 0x5E ∨ cell.effval = 0x5F)

def BreaksInside (song : ModSong) (order row : ℕ) : Prop :=
  ∀ i < song.channels, Overshoots (song.cell order row i) →
    ∃ j, i < j ∧ j < song.channels ∧ Lands (song.cell order row j)

/-- The row to skip to is in the pattern, or a channel from `i` on will set it. -/
def DestRow (song : ModSong) (order row i d : ℕ) : Prop :=
  d < 64 ∨ ∃ j, i ≤ j ∧ j < song.channels ∧ Lands (song.cell order row j)

theorem effectValue_lt (h : song.Sound) {cell : ModCell} (heff : cell.eff = 0xB) :
    song.effectValue cell < song.orders := by
  have hpos := h.orders_pos
  unfold effectValue
  split
  · exact hpos
  · next hjump =>
    rw [if_neg (by omega)]
    omega

theorem destRow_break {cell : ModCell} (heff : cell.eff = 0xD) (h : ¬ Overshoots cell) :
    song.effectValue cell / 16 * 10 + song.effectValue cell % 16 < 64 := by
  unfold effectValue
  unfold Overshoots at h
  rw [if_neg (by omega)]
  split <;> omega

theorem readHdr_yields (h : song.Sound) {idx off : ℕ} (hidx : idx < 31) (hoff : off < 30) :
    Yields (song.readHdr idx off) fun _ => True := by
  have hheader := h.header
  apply Yields.access_bind
  · unfold sampleHdr
    omega
  · exact Yields.result trivial

theorem takeSample_yields (h : song.Sound) (hc : song.ChSound c) (sample : ℕ) :
    Yields (song.takeSample c sample) song.ChSound := by
  unfold takeSample
  split
  · exact Yields.result hc
  · have hidx : (if 31 < sample then 1 else sample) - 1 < 31 := by split <;> omega
    apply (readHdr_yields h hidx (by decide)).bind
    intro vol _
    refine Yields.result ⟨hidx, fun d hd => ⟨_, hidx, ?_⟩⟩
    dsimp only at hd ⊢
    rw [← hd]

theorem takeNote_yields (h : song.Sound) (hc : song.ChSound c) (cell : ModCell) :
    Yields (song.takeNote c cell) song.ChSound := by
  unfold takeNote
  split
  · exact Yields.result hc
  · apply Yields.bind (Q := fun _ => True)
    · unfold finetune
      split
      · exact Yields.result trivial
      · exact readHdr_yields h hc.idx (by decide)
    · intro finetune _
      dsimp only
      split
      · exact Yields.result ⟨hc.idx, hc.sample⟩
      · exact Yields.result ⟨hc.idx, hc.sample⟩

def RowTurn (song : ModSong) (Q : ℕ → Prop) (st : ModState) (r : ModState × TrackerCh) : Prop :=
  song.StateSound Q r.1 ∧ song.ChSound r.2 ∧ SameRow st r.1

theorem extendedRow_turn (hst : song.StateSound Q st) (hc : song.ChSound c) (h64 : ∀ d < 64, Q d)
    (x y : ℕ) : song.RowTurn Q st (extendedRow st c x y) := by
  have hkeep : ∀ c', song.ChSound c' → song.RowTurn Q st (st, c') :=
    fun c' hc' => ⟨hst, hc', rfl, rfl, rfl⟩
  unfold extendedRow
  split
  · exact hkeep _ ⟨hc.idx, hc.sample⟩
  · exact hkeep _ ⟨hc.idx, hc.sample⟩
  · exact hkeep _ ⟨hc.idx, hc.sample⟩
  · split
    · exact ⟨{ hst with loopRow := hst.row }, hc, rfl, rfl, rfl⟩
    · dsimp only
      generalize (if st.patLoopCycle = 0 then y + 1 else st.patLoopCycle) = cycle
      split
      · refine ⟨{ hst with req := fun o ho => ?_, dest := h64 _ hst.loopRow }, hc, rfl, rfl, rfl⟩
        obtain rfl := Option.some.inj ho
        exact hst.order
      · exact ⟨{ hst with }, hc, rfl, rfl, rfl⟩
  · exact hkeep _ ⟨hc.idx, hc.sample⟩
  · exact hkeep _ ⟨hc.idx, hc.sample⟩
  · exact hkeep _ ⟨hc.idx, hc.sample⟩
  · exact ⟨{ hst with }, hc, rfl, rfl, rfl⟩
  · exact hkeep _ hc

theorem rowEffect_yields {eff ev : ℕ} (hst : song.StateSound P st) (hc : song.ChSound c)
    (hsong : song.Sound) (hjump : eff = 0xB → ev < song.orders) (h64 : ∀ d < 64, Q d)
    (hbreak : eff = 0xD → Q (ev / 16 * 10 + ev % 16)) (hskip : eff ≠ 0xD → ∀ d, P d → Q d) :
    Yields (song.rowEffect st c eff ev) (song.RowTurn Q st) := by
  have hkeep : eff ≠ 0xD → song.StateSound Q st := fun h => { hst with dest := hskip h _ hst.dest }
  have hdone : ∀ c', eff ≠ 0xD → song.ChSound c' → Yields (.ok (st, c')) (song.RowTurn Q st) :=
    fun c' h hc' => Yields.result ⟨hkeep h, hc', rfl, rfl, rfl⟩
  unfold rowEffect
  split
  · exact hdone _ (by decide) ⟨hc.idx, hc.sample⟩
  · exact hdone _ (by decide) ⟨hc.idx, hc.sample⟩
  · exact Yields.result ⟨{ hkeep (by decide) with }, ⟨hc.idx, hc.sample⟩, rfl, rfl, rfl⟩
  · exact Yields.result ⟨{ hkeep (by decide) with }, ⟨hc.idx, hc.sample⟩, rfl, rfl, rfl⟩
  · exact Yields.result ⟨{ hkeep (by decide) with }, ⟨hc.idx, hc.sample⟩, rfl, rfl, rfl⟩
  · exact hdone _ (by decide) ⟨hc.idx, hc.sample⟩
  · exact hdone _ (by decide) ⟨hc.idx, hc.sample⟩
  · refine Yields.result ⟨{ hkeep (by decide) with req := fun o ho => ?_ }, hc, rfl, rfl, rfl⟩
    obtain rfl := Option.some.inj ho
    exact hjump rfl
  · refine Yields.result ⟨{ hst with req := fun o ho => ?_, dest := hbreak rfl }, hc, rfl, rfl, rfl⟩
    obtain rfl := Option.some.inj ho
    have hpos := hsong.orders_pos
    cases hreq : st.skipOrderReq with
    | none =>
      rw [Option.getD_none]
      split <;> omega
    | some o => exact hst.req o hreq
  · exact Yields.result (extendedRow_turn (hkeep (by decide)) hc h64 _ _)
  · split
    · exact hdone _ (by decide) hc
    · next hzero =>
      split
      · apply Yields.access_bind hst.speed
        exact Yields.result ⟨{ hkeep (by decide) with speed := hzero }, hc, rfl, rfl, rfl⟩
      · apply Yields.access_bind hzero
        exact Yields.result ⟨{ hkeep (by decide) with }, hc, rfl, rfl, rfl⟩
  · next heff _ _ => exact hdone _ heff hc

def InRow (song : ModSong) (st : ModState) (i : ℕ) (s : ModState) : Prop :=
  song.StateSound (song.DestRow st.order st.row i) s ∧ SameRow st s

theorem readRow_yields (hsong : song.Sound) (hbreaks : song.BreaksInside st.order st.row)
    (hi : i < song.channels) (h : song.InRow st i s) :
    Yields (song.readRow s i) (song.InRow st (i + 1)) := by
  obtain ⟨hs, horder, hrow, htick⟩ := h
  unfold readRow
  dsimp only
  apply Yields.access_bind (hsong.hasCell hs.row hs.order hi)
  rw [horder, hrow]
  have hc : song.ChSound (startRow (s.ch i)) := ⟨(hs.ch i).idx, (hs.ch i).sample⟩
  apply (takeSample_yields hsong hc _).bind
  intro c hc
  apply (takeNote_yields hsong hc _).bind
  intro c hc
  apply Yields.bind (Q := song.RowTurn (song.DestRow st.order st.row (i + 1)) s)
  · apply rowEffect_yields hs hc hsong
    · exact effectValue_lt hsong
    · exact fun d hd => Or.inl hd
    · intro heff
      by_cases hover : Overshoots (song.cell st.order st.row i)
      · exact Or.inr (hbreaks i hi hover)
      · exact Or.inl (destRow_break heff hover)
    · rintro heff d (hd | ⟨j, hij, hj, hlands⟩)
      · exact Or.inl hd
      · have hne : j ≠ i := by
          rintro rfl
          exact heff hlands.1
        exact Or.inr ⟨j, by omega, hj, hlands⟩
  · rintro ⟨s', c⟩ ⟨hs', hc, hsame⟩
    refine Yields.result ⟨hs'.setCh ⟨hc.idx, hc.sample⟩, ?_⟩
    exact ⟨hsame.1.trans horder, hsame.2.1.trans hrow, hsame.2.2.trans htick⟩

theorem readRows_yields (hsong : song.Sound) (hst : song.StateSound (· < 64) st)
    (hbreaks : song.BreaksInside st.order st.row) :
    Yields (Guarded.loop song.readRow { st with skipOrderReq := none } song.channels)
      fun s => song.StateSound (· < 64) s ∧ s.tick = st.tick := by
  apply (Yields.loop (I := song.InRow st) _ fun i hi s _ h =>
    readRow_yields hsong hbreaks hi h).mono
  · rintro s ⟨hs, -, -, htick⟩
    refine ⟨{ hs with dest := ?_ }, htick⟩
    rcases hs.dest with hd | ⟨j, hij, hj, -⟩
    · exact hd
    · omega
  · exact ⟨{ hst with req := fun o ho => (by cases ho), dest := Or.inl hst.dest }, rfl, rfl, rfl⟩

/-! ## Ticks -/

def Divides (c : TrackerCh) : Prop := c.eff = 0xE ∧ c.effval = 0x90

def ChTurn (song : ModSong) (c c' : TrackerCh) : Prop :=
  song.ChSound c' ∧ c'.eff = c.eff ∧ c'.effval = c.effval

theorem portamento_turn (hc : song.ChSound c) (ev : ℕ) : song.ChTurn c (portamento c ev) :=
  ⟨⟨hc.idx, hc.sample⟩, rfl, rfl⟩

theorem extendedTick_yields {tick : ℕ} (hc : song.ChSound c) (x y : ℕ)
    (h : tick ≠ 0 → x = 9 → y ≠ 0) :
    Yields (extendedTick tick c x y) (song.ChTurn c) := by
  have hkeep : song.ChTurn c c := ⟨hc, rfl, rfl⟩
  unfold extendedTick
  split
  · exact Yields.result ⟨⟨hc.idx, hc.sample⟩, rfl, rfl⟩
  · split
    · exact Yields.result hkeep
    · next htick =>
      apply Yields.access_bind (h htick rfl)
      apply Yields.result
      split
      · exact ⟨⟨hc.idx, hc.sample⟩, rfl, rfl⟩
      · exact hkeep
  · apply Yields.result
    split
    · exact ⟨⟨hc.idx, hc.sample⟩, rfl, rfl⟩
    · exact hkeep
  · apply Yields.result
    split
    · exact ⟨⟨hc.idx, hc.sample⟩, rfl, rfl⟩
    · exact hkeep
  · exact Yields.result hkeep

theorem tickEffect_yields {tick rng : ℕ} (hc : song.ChSound c) (h : tick ≠ 0 → ¬ Divides c) :
    Yields (tickEffect tick c rng) fun r => song.ChTurn c r.1 := by
  have hkeep : song.ChTurn c c := ⟨hc, rfl, rfl⟩
  have hfirst : ∀ c', song.ChTurn c c' →
      Yields (.ok (if tick = 0 then c else c', rng)) fun r => song.ChTurn c r.1 := by
    intro c' hc'
    apply Yields.result
    dsimp only
    split
    · exact hkeep
    · exact hc'
  unfold tickEffect
  split
  · split
    · exact Yields.result hkeep
    · exact Yields.result ⟨⟨hc.idx, hc.sample⟩, rfl, rfl⟩
  · exact hfirst _ ⟨⟨hc.idx, hc.sample⟩, rfl, rfl⟩
  · exact hfirst _ ⟨⟨hc.idx, hc.sample⟩, rfl, rfl⟩
  · exact hfirst _ ⟨⟨hc.idx, hc.sample⟩, rfl, rfl⟩
  · exact hfirst _ (portamento_turn hc _)
  · split
    · exact Yields.result hkeep
    · exact Yields.result ⟨⟨hc.idx, hc.sample⟩, rfl, rfl⟩
  · split
    · exact Yields.result hkeep
    · exact Yields.result ⟨⟨hc.idx, hc.sample⟩, rfl, rfl⟩
  · exact hfirst _ ⟨⟨hc.idx, hc.sample⟩, rfl, rfl⟩
  · split
    · exact Yields.result hkeep
    · exact Yields.result ⟨⟨hc.idx, hc.sample⟩, rfl, rfl⟩
  · next heff =>
    apply (extendedTick_yields hc _ _ fun htick hx hy => h htick ⟨heff, by omega⟩).bind
    exact fun c' hc' => Yields.result hc'
  · exact Yields.result hkeep

theorem precalc_yields (hc : song.ChSound c) : Yields (precalc c) (song.ChTurn c) := by
  unfold precalc
  dsimp only
  split
  · exact Yields.result ⟨⟨hc.idx, hc.sample⟩, rfl, rfl⟩
  · apply Yields.access_bind
    · have hone := le_max_right (wrapInt (max c.period 0 + c.vibrato.val / 2 ^ 7)) 1
      omega
    · exact Yields.result ⟨⟨hc.idx, hc.sample⟩, rfl, rfl⟩

def InTick (song : ModSong) (s : ModState) : Prop :=
  song.StateSound (· < 64) s ∧ (s.tick ≠ 0 → ∀ k < song.channels, ¬ Divides (s.ch k))

theorem playCh_yields (hi : i < song.channels) (h : song.InTick s) :
    Yields (playCh s i) song.InTick := by
  obtain ⟨hs, hdivides⟩ := h
  apply (tickEffect_yields (hs.ch i) fun htick => hdivides htick i hi).bind
  rintro ⟨c, rng⟩ ⟨hc, heff, heffval⟩
  apply (precalc_yields hc).bind
  rintro c' ⟨hc', heff', heffval'⟩
  have hrng : song.StateSound (· < 64) { s with rng } := { hs with }
  refine Yields.result ⟨hrng.setCh hc', fun htick k hk => ?_⟩
  have hcase : ¬ Divides c' := by
    unfold Divides
    rw [heff', heffval']
    dsimp only
    rw [heff, heffval]
    exact hdivides htick i hi
  unfold ModState.setCh
  dsimp only
  split
  · exact hcase
  · exact hdivides htick k hk

theorem advance_sound (hsong : song.Sound) (hs : song.StateSound (· < 64) s) :
    song.StateSound (· < 64) (song.advance s) := by
  have hpos := hsong.orders_pos
  unfold advance
  dsimp only
  split
  · exact { hs with }
  · cases hreq : s.skipOrderReq with
    | some order =>
      exact { hs with
        order := hs.req order hreq, row := hs.dest, req := fun o ho => (by cases ho)
        dest := (by decide : 0 < 64) }
    | none =>
      dsimp only
      have hnone : ∀ o, none = some o → o < song.orders := fun o ho => by cases ho
      split
      · next hrow => exact { hs with row := hrow, req := hnone }
      · split
        · next horder =>
            exact { hs with row := (by decide : 0 < 64), order := horder, req := hnone }
        · exact { hs with row := (by decide : 0 < 64), order := hpos, req := hnone }

/-- The tick has no effect that is played wrong: it is the first of a row whose breaks lead inside,
or a later one without a retrigger of every 0 ticks. -/
def TickMeets (song : ModSong) (st : ModState) : Prop :=
  if st.tick = 0 then song.BreaksInside st.order st.row
  else ∀ k < song.channels, ¬ Divides (st.ch k)

theorem engineTick_yields (hsong : song.Sound) (hst : song.StateSound (· < 64) st)
    (h : song.TickMeets st) : Yields (song.engineTick st) (song.StateSound (· < 64)) := by
  unfold TickMeets at h
  apply Yields.bind (Q := song.InTick)
  · unfold readRows
    split
    · next htick =>
      rw [if_pos htick] at h
      apply (readRows_yields hsong hst h).mono
      exact fun s ⟨hs, hsame⟩ => ⟨hs, fun hne => absurd (hsame.trans htick) hne⟩
    · next htick =>
      rw [if_neg htick] at h
      exact Yields.result ⟨hst, fun _ => h⟩
  · intro s hs
    apply Yields.bind (Q := song.InTick)
    · exact Yields.loop (I := fun _ => song.InTick) hs fun i hi s _ h => playCh_yields hi h
    · exact fun s hs => Yields.result (advance_sound hsong hs.1)

/-! ## Frames -/

theorem wrapPtr_yields (hloop : g.loopLength ≤ g.length)
    (hlast : g.loopLength = 0 → last < g.length)
    (hfuel : ptr < fuel) : Yields (wrapPtr g last fuel ptr) (· < g.length) := by
  induction fuel generalizing ptr with
  | zero => exact absurd hfuel (Nat.not_lt_zero ptr)
  | succ fuel ih =>
    unfold wrapPtr
    split
    · next hptr => exact Yields.result hptr
    · split
      · apply ih
        unfold sub32 u32
        omega
      · next hzero => exact Yields.result (hlast (not_not.mp hzero))

theorem mixCh_yields (hsong : song.Sound) (hc : song.ChSound c) (major minor : ℤ) :
    Yields (song.mixCh i major minor c.gen) fun r => song.ChSound { c with gen := r.1 } := by
  unfold mixCh
  split
  · exact Yields.result hc
  · next d hdata =>
    obtain ⟨k, hk, hsample⟩ := hc.sample d hdata
    have hloop := hsong.loops k
    have hinside := hsong.inside k d
    rw [hsample] at hloop hinside
    dsimp only at hloop
    have hframe : ∀ ptr < c.gen.length, song.HasFrame d ptr := by
      intro ptr hptr
      have hend := hinside rfl
      dsimp only at hend
      exact ⟨⟨k, hk, by rw [hsample], by rw [hsample]; exact hptr⟩, by omega⟩
    split
    · exact Yields.result hc
    · next hplays =>
      apply (wrapPtr_yields hloop (fun hzero => by omega) (Nat.lt_succ_self _)).bind
      intro ptr hptr
      apply Yields.bind (Q := fun _ => True)
      · unfold interpolate
        split
        · exact Yields.result trivial
        · apply (wrapPtr_yields hloop (fun _ => hptr) (Nat.lt_succ_self _)).bind
          intro next hnext
          apply Yields.access_bind ⟨hframe ptr hptr, hframe next hnext⟩
          exact Yields.result trivial
      · exact fun scaled _ => Yields.result ⟨hc.idx, hc.sample⟩

theorem mixChannels_yields (hsong : song.Sound) {m : ModMix} (hm : song.StateSound (· < 64) m.st)
    (major minor : ℤ) :
    Yields (song.mixChannels major minor m i) fun m => song.StateSound (· < 64) m.st := by
  apply (mixCh_yields hsong (hm.ch i) major minor).bind
  exact fun r hr => Yields.result (hm.setCh hr)

theorem mixFrame_yields (hsong : song.Sound) {r : ModState × List (ℤ × ℤ)}
    (hr : song.StateSound (· < 64) r.1) (h : r.1.audioTick = 0 → song.TickMeets r.1)
    (major minor : ℤ) :
    Yields (song.mixFrame major minor r) fun r => song.StateSound (· < 64) r.1 := by
  apply Yields.bind (Q := song.StateSound (· < 64))
  · unfold tickIfDue
    split
    · next htick =>
      apply (engineTick_yields hsong hr (h htick)).bind
      exact fun s hs => Yields.result (hs.setAudioTick _)
    · exact Yields.result hr
  · intro s hs
    have hs' := hs.setAudioTick (sub32 s.audioTick 1)
    apply Yields.bind (Q := fun m : ModMix => song.StateSound (· < 64) m.st)
    · exact Yields.loop (I := fun _ (m : ModMix) => song.StateSound (· < 64) m.st) hs'
        fun i _ m _ hm => mixChannels_yields hsong hm major minor
    · exact fun m hm => Yields.result hm

theorem mixBlock_eq (song : ModSong) : ∃ major minor, ∀ st n, song.mixBlock st n =
    Guarded.loop (fun r _ => song.mixFrame major minor r) (st, []) n := by
  have hpairs : (if song.channels / 2 = 0 then 1 else song.channels / 2) ≠ 0 := by split <;> omega
  unfold mixBlock Guarded.access
  simp only [if_pos hpairs]
  exact ⟨_, _, fun _ _ => rfl⟩

/-- A song is played without a wrong access as long as its ticks have no effect that is played
wrong. -/
theorem mixBlock_safe {name file : List Byte} (hparse : parseAndInit name file = some song) (n : ℕ)
    (hticks : ∀ i < n, ∀ st out, song.mixBlock ModState.initial i = .ok (st, out) →
      st.audioTick = 0 → song.TickMeets st) :
    (song.mixBlock ModState.initial n).Safe := by
  have hsong := sound_of_parse hparse
  obtain ⟨major, minor, heq⟩ := mixBlock_eq song
  rw [heq]
  apply Yields.safe (Q := fun r => song.StateSound (· < 64) r.1)
  apply Yields.loop (I := fun _ (r : ModState × List (ℤ × ℤ)) => song.StateSound (· < 64) r.1)
    (initial_sound hsong)
  intro i hi r hrun hr
  rw [← heq] at hrun
  exact mixFrame_yields hsong hr (hticks i hi r.1 r.2 hrun) major minor

def effectFile (eff effval : Byte) : List Byte :=
  List.replicate 470 0 ++ [1] ++ List.replicate 129 0 ++ [0, 0, eff, effval] ++
    List.replicate 1020 0

theorem mixBlock_safe_effect : ∃ song, parseAndInit modSuffix (effectFile 0xC 0x40) = some song ∧
    (song.mixBlock ModState.initial 1).Safe := by
  have hparse : (parseAndInit modSuffix (effectFile 0xC 0x40)).any fun song =>
      decide (∀ i < song.channels, (song.cell 0 0 i).eff ≠ 0xD) := by decide +kernel
  obtain ⟨song, hsong, hbreaks⟩ := (Option.any_eq_true _ _).mp hparse
  refine ⟨song, hsong, mixBlock_safe hsong 1 fun i hi st out hrun htick => ?_⟩
  obtain rfl : i = 0 := by omega
  obtain ⟨major, minor, heq⟩ := mixBlock_eq song
  rw [heq] at hrun
  obtain ⟨rfl, -⟩ := Prod.mk.inj (Guarded.ok.inj hrun)
  intro k hk hover
  exact absurd hover.1 (of_decide_eq_true hbreaks k hk)

/-- The second tick of a row with the effect `E90` divides by 0. -/
theorem not_safe_effect : ¬ ∀ (name file : List Byte) (song : ModSong) (n : ℕ),
    parseAndInit name file = some song → (song.mixBlock ModState.initial n).Safe := by
  intro h
  have hsafe : ∀ song ∈ parseAndInit modSuffix (effectFile 0xE 0x90),
      (song.mixBlock ModState.initial 883).Safe := fun song hsong => h _ _ _ _ hsong
  revert hsafe
  decide +kernel

end ModSong

end RetroRocket
