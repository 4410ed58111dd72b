import RetroRocket.BasicVariables
import RetroRocket.Run

/-!
# The scopes of a BASIC program

Plain assignments, `GLOBAL` and `LOCAL` ones, the binding of parameters, calls and returns act on
the maps of a context as `Scopes` says they should, as long as no `LOCAL` assignment or parameter
meets a global variable of its name and no parameter is assigned to. The search for a `LOCAL`
variable goes on in the map of the program when the frame does not have it, and a plain assignment
does not look into the frame at all.
-/

namespace RetroRocket

inductive VarCall where
  | assign (kind : VarKind) (var : Name) (value : Value)
  | assignGlobal (kind : VarKind) (var : Name) (value : Value)
  | assignLocal (kind : VarKind) (var : Name) (value : Value)
  | bind (kind : VarKind) (var : Name) (value : Value)
  | enter
  | leave

/-- The assignments of `assignment_statement` and `extract_comma_list`, and the frames of calls. -/
def BasicCtx.call (ctx : BasicCtx) : VarCall → Option BasicCtx
  | .assign kind var value => (basicSetVariable kind var value ctx false false).toOption
  | .assignGlobal kind var value => (basicSetVariable kind var value ctx false true).toOption
  | .assignLocal kind var value => (basicSetVariable kind var value ctx true false).toOption
  | .bind kind var value => (basicSetVariable kind var value ctx true false).toOption
  | .enter => do
    let ctx ← (newStackFrame ctx).toOption
    initLocalHeap ctx
  | .leave =>
    if 0 < ctx.callStackPtr then do
      let ctx ← freeLocalHeap ctx
      some (popStackFrame ctx)
    else none

abbrev BasicScopes := Scopes (VarKind × Name) Value

def BasicScopes.call (scopes : BasicScopes) : VarCall → BasicScopes
  | .assign kind var value => scopes.assign (kind, var) value
  | .assignGlobal kind var value => scopes.setGlobal (kind, var) value
  | .assignLocal kind var value => scopes.setLocal (kind, var) value
  | .bind kind var value => scopes.bind (kind, var) value
  | .enter => scopes.enter
  | .leave => scopes.leave

structure BasicRun where
  ctx : BasicCtx
  scopes : BasicScopes

namespace BasicRun

variable {s t : BasicRun} {c : VarCall} {kind : VarKind} {var : Name} {value : Value}

def call (s : BasicRun) (c : VarCall) : Option BasicRun :=
  (s.ctx.call c).map fun ctx => ⟨ctx, BasicScopes.call s.scopes c⟩

def init : BasicRun := ⟨BasicCtx.init, Scopes.empty⟩

def FreeToBind (s : BasicRun) (kind : VarKind) (var : Name) : Prop :=
  ∃ frame ∈ s.scopes.frames.head?,
    frame.vars (kind, var) ≠ none ∨ s.scopes.globals (kind, var) = none

/-- The calls of a program: names are well formed, a return is from a frame, and the frames do not
exceed the tables. -/
def Proper (s : BasicRun) : VarCall → Prop
  | .assign kind var _ => validVar kind var
  | .assignGlobal kind var _ => validVar kind var
  | .assignLocal kind var _ => validVar kind var
  | .bind kind var _ => validVar kind var
  | .enter => s.scopes.frames.length < 254
  | .leave => s.scopes.frames ≠ []

/-- A local variable or a parameter does not meet a global one of its name, and a parameter is not
assigned to. -/
def KeepsScopes (s : BasicRun) : VarCall → Prop
  | .assign kind var _ => ¬ s.scopes.IsParam (kind, var)
  | .assignLocal kind var _ => s.FreeToBind kind var
  | .bind kind var _ => s.FreeToBind kind var
  | _ => True

/-! ## The relation -/

def Agrees (kind : VarKind) (map : VarMap) (vars : VarKind × Name → Option Value) : Prop :=
  ∀ var, (map var).map Variable.value = vars (kind, var)

def HoldsFrames (vars : VarKind → VarMaps) : List (Frame (VarKind × Name) Value) → Prop
  | [] => True
  | frame :: rest => (∀ kind, ∃ map, (vars kind).locals (rest.length + 1) = some map ∧
      Agrees kind map frame.vars) ∧ HoldsFrames vars rest

structure Refines (s : BasicRun) : Prop where
  depth : s.ctx.callStackPtr = s.scopes.frames.length
  bound : s.scopes.frames.length < 255
  globals : ∀ kind, Agrees kind (s.ctx.vars kind).globals s.scopes.globals
  frames : HoldsFrames s.ctx.vars s.scopes.frames

section Maps

variable {map : VarMap} {vars : VarKind × Name → Option Value}

theorem Agrees.update (h : Agrees kind map vars) (var : Name) (new : Variable) :
    Agrees kind (Function.update map var (some new))
      (Function.update vars (kind, var) (some new.value)) := by
  intro x
  by_cases hx : x = var
  · subst hx
    simp
  · rw [Function.update_of_ne hx, Function.update_of_ne fun heq => hx (Prod.mk.inj heq).2]
    exact h x

theorem Agrees.update_of_ne {kind' : VarKind} (h : Agrees kind map vars)
    (hne : kind ≠ kind') (var : Name)
    (value : Value) : Agrees kind map (Function.update vars (kind', var) (some value)) := by
  intro x
  rw [Function.update_of_ne fun heq => hne (Prod.mk.inj heq).1]
  exact h x

theorem Agrees.isSome (h : Agrees kind map vars) (var : Name) :
    (map var).isSome = (vars (kind, var)).isSome := by
  rw [← h var, Option.isSome_map]

end Maps

section Frames

variable {vars vars' : VarKind → VarMaps} {frames : List (Frame (VarKind × Name) Value)}

theorem HoldsFrames.congr (h : HoldsFrames vars frames)
    (hsame : ∀ kind, ∀ i ≤ frames.length, (vars' kind).locals i = (vars kind).locals i) :
    HoldsFrames vars' frames := by
  induction frames with
  | nil => trivial
  | cons frame rest ih =>
    refine ⟨fun kind => ?_, ih h.2 fun kind i hi => hsame kind i (Nat.le_succ_of_le hi)⟩
    obtain ⟨map, hmap, hagrees⟩ := h.1 kind
    exact ⟨map, (hsame kind _ le_rfl).trans hmap, hagrees⟩

theorem findVariable_eq {globals : VarKind × Name → Option Value} (h : HoldsFrames vars frames)
    (hglobals : Agrees kind (vars kind).globals globals) (var : Name) :
    (findVariable (vars kind) var frames.length).map Variable.value =
      (⟨globals, frames⟩ : BasicScopes).read (kind, var) := by
  induction frames with
  | nil => exact hglobals var
  | cons frame rest ih =>
    obtain ⟨map, hmap, hagrees⟩ := h.1 kind
    rw [List.length_cons, findVariable, hmap, Option.bind_some, Scopes.read_cons, ← hagrees var]
    cases map var with
    | none => exact ih h.2
    | some found => rfl

end Frames

theorem Refines.read (h : s.Refines) (kind : VarKind) (var : Name) :
    basicGetVariable kind var s.ctx = match s.scopes.read (kind, var) with
      | some value => .ok value
      | none => .error (noSuchVariable kind var) := by
  have hfind := findVariable_eq h.frames (h.globals kind) var
  rw [← h.depth] at hfind
  unfold basicGetVariable
  rw [← hfind]
  cases findVariable (s.ctx.vars kind) var s.ctx.callStackPtr <;> rfl

/-! ## The calls -/

theorem Refines.setGlobal (h : s.Refines) (kind : VarKind) (var : Name) (new : Variable) :
    (⟨setGlobalMap kind var new s.ctx, s.scopes.setGlobal
      (kind, var) new.value⟩ : BasicRun).Refines := by
  have hlocals :
      ∀ k, ((setGlobalMap kind var new s.ctx).vars k).locals = (s.ctx.vars k).locals := by
    intro k
    unfold setGlobalMap
    by_cases hk : k = kind
    · subst hk
      simp
    · dsimp only
      rw [Function.update_of_ne hk]
  refine ⟨h.depth, h.bound, fun k => ?_, h.frames.congr fun k i _ => by rw [hlocals]⟩
  unfold setGlobalMap Scopes.setGlobal
  dsimp only
  by_cases hk : k = kind
  · subst hk
    rw [Function.update_self]
    exact (h.globals k).update var new
  · rw [Function.update_of_ne hk]
    exact (h.globals k).update_of_ne hk var new.value

theorem Refines.setLocal (h : s.Refines) {frame : Frame (VarKind × Name) Value}
    {rest : List (Frame (VarKind × Name) Value)} (hframes : s.scopes.frames = frame :: rest)
    {map : VarMap} (hmap : (s.ctx.vars kind).locals s.ctx.callStackPtr = some map) (var : Name)
    (new : Variable) (frame' : Frame (VarKind × Name) Value)
    (hframe' : frame'.vars = Function.update frame.vars (kind, var) (some new.value)) :
    (⟨setLocalMap kind map var new s.ctx, { s.scopes with frames := frame' :: rest }⟩ :
      BasicRun).Refines := by
  obtain ⟨ctx, globals, frames⟩ := s
  obtain rfl : frames = frame :: rest := hframes
  have hdepth : ctx.callStackPtr = rest.length + 1 := h.depth
  have hglobals :
      ∀ k, ((setLocalMap kind map var new ctx).vars k).globals = (ctx.vars k).globals := by
    intro k
    unfold setLocalMap
    by_cases hk : k = kind
    · subst hk
      simp
    · dsimp only
      rw [Function.update_of_ne hk]
  have hlocals : ∀ k, ((setLocalMap kind map var new ctx).vars k).locals =
      if k = kind then Function.update (ctx.vars k).locals (rest.length + 1)
        (some (Function.update map var (some new))) else (ctx.vars k).locals := by
    intro k
    unfold setLocalMap
    by_cases hk : k = kind
    · subst hk
      simp [hdepth]
    · dsimp only
      rw [Function.update_of_ne hk, if_neg hk]
  refine ⟨h.depth, h.bound, fun k => ?_, fun k => ?_, h.frames.2.congr fun k i hi => ?_⟩
  · rw [hglobals]
    exact h.globals k
  · obtain ⟨map', hmap', hagrees⟩ := h.frames.1 k
    rw [hlocals, hframe']
    by_cases hk : k = kind
    · subst hk
      rw [if_pos rfl, Function.update_self]
      change (ctx.vars k).locals ctx.callStackPtr = some map at hmap
      rw [hdepth, hmap'] at hmap
      obtain rfl := Option.some.inj hmap
      exact ⟨_, rfl, hagrees.update var new⟩
    · rw [if_neg hk]
      exact ⟨map', hmap', hagrees.update_of_ne hk var new.value⟩
  · rw [hlocals]
    split
    · exact Function.update_of_ne (by omega) _ _
    · rfl

/-- A `LOCAL` assignment goes to the frame, if no global variable is in the way. -/
theorem Refines.basicSetVariable_local (h : s.Refines) (hvalid : validVar kind var)
    (hfree : s.FreeToBind kind var) (value : Value) :
    ∃ map frame rest, (s.ctx.vars kind).locals s.ctx.callStackPtr = some map ∧
      s.scopes.frames = frame :: rest ∧ basicSetVariable kind var value s.ctx true false =
        .ok (setLocalMap kind map var ⟨value, false⟩ s.ctx) := by
  obtain ⟨frame, hframe, hfree⟩ := hfree
  obtain ⟨rest, hframes⟩ := List.head?_eq_some_iff.mp hframe
  have hholds := h.frames
  have hdepth := h.depth
  rw [hframes] at hholds hdepth
  obtain ⟨map, hmap, hagrees⟩ := hholds.1 kind
  rw [List.length_cons] at hdepth
  rw [← hdepth] at hmap
  refine ⟨map, frame, rest, hmap, hframes, ?_⟩
  unfold basicSetVariable
  dsimp only
  rw [hvalid, if_neg (by decide), if_pos rfl, hmap]
  dsimp only
  rw [hagrees.isSome, (h.globals kind).isSome]
  split
  · rfl
  · next hnot =>
    rcases hfree with hhas | hnone
    · exact absurd (Option.isSome_iff_ne_none.mpr hhas) hnot
    · rw [hnone]
      rfl

theorem Refines.enter (h : s.Refines) (hbound : s.scopes.frames.length < 254) :
    ∃ t, s.call .enter = some t ∧ t.Refines := by
  have hdepth := h.depth
  obtain ⟨ctx, hctx⟩ : ∃ ctx, ctx = ({ s.ctx with
      callStackPtr := s.ctx.callStackPtr + 1
      vars := fun kind => { s.ctx.vars kind with
        locals := Function.update (s.ctx.vars kind).locals (s.ctx.callStackPtr + 1)
          (some fun _ => none) } } : BasicCtx) := ⟨_, rfl⟩
  have hcall : s.ctx.call .enter = some ctx := by
    have hnew : newStackFrame s.ctx = .ok { s.ctx with callStackPtr := s.ctx.callStackPtr + 1 } :=
      if_neg (by unfold maxCallStackDepth; omega)
    unfold BasicCtx.call
    rw [hnew, hctx]
    exact if_pos
      (show s.ctx.callStackPtr + 1 < maxCallStackDepth by unfold maxCallStackDepth; omega)
  refine ⟨⟨ctx, s.scopes.enter⟩, ?_, ?_⟩
  · unfold call
    rw [hcall]
    rfl
  · subst hctx
    refine ⟨congrArg (· + 1) hdepth, Nat.succ_lt_succ hbound, h.globals, fun kind => ?_,
      h.frames.congr fun kind i hi => ?_⟩
    · refine ⟨fun _ => none, ?_, fun _ => rfl⟩
      dsimp only
      rw [hdepth, Function.update_self]
    · exact Function.update_of_ne (by omega) _ _

theorem Refines.leave (h : s.Refines) (hframes : s.scopes.frames ≠ []) :
    ∃ t, s.call .leave = some t ∧ t.Refines := by
  obtain ⟨ctx, globals, frames⟩ := s
  cases frames with
  | nil => exact absurd rfl hframes
  | cons frame rest =>
    have hdepth : ctx.callStackPtr = rest.length + 1 := h.depth
    have hbound : rest.length + 1 < 255 := h.bound
    have hfree : freeLocalHeap ctx = some { ctx with vars := fun kind => { ctx.vars kind with
        locals := Function.update (ctx.vars kind).locals ctx.callStackPtr none } } :=
      if_pos (by unfold maxCallStackDepth; omega)
    obtain ⟨left, hleft⟩ : ∃ left, left = ({
        callStackPtr := rest.length
        vars := fun kind => { ctx.vars kind with
          locals := Function.update (ctx.vars kind).locals ctx.callStackPtr none } } : BasicCtx) :=
      ⟨_, rfl⟩
    have hcall : ctx.call .leave = some left := by
      unfold BasicCtx.call
      dsimp only
      rw [if_pos (by omega), hfree]
      dsimp only [Option.bind_eq_bind, Option.bind_some]
      unfold popStackFrame
      dsimp only
      rw [if_pos (by omega), hleft, hdepth]
      rfl
    refine ⟨⟨left, ⟨globals, rest⟩⟩, ?_, ?_⟩
    · unfold call
      dsimp only
      rw [hcall]
      rfl
    · subst hleft
      refine ⟨rfl, Nat.lt_of_succ_lt hbound, h.globals, h.frames.2.congr fun kind i hi => ?_⟩
      exact Function.update_of_ne (by omega) _ _

/-- The new state of a `LOCAL` assignment and of the binding of a parameter. -/
theorem Refines.modifyHead (h : s.Refines) (hvalid : validVar kind var)
    (hfree : s.FreeToBind kind var) (value : Value)
    (f : Frame (VarKind × Name) Value → Frame (VarKind × Name) Value)
    (hf : ∀ frame, (f frame).vars = Function.update frame.vars (kind, var) (some value)) :
    ∃ ctx, basicSetVariable kind var value s.ctx true false = .ok ctx ∧
      (⟨ctx, s.scopes.modifyHead f⟩ : BasicRun).Refines := by
  obtain ⟨map, frame, rest, hmap, hframes, hset⟩ := h.basicSetVariable_local hvalid hfree value
  refine ⟨_, hset, ?_⟩
  have hscopes : s.scopes.modifyHead f = { s.scopes with frames := f frame :: rest } := by
    unfold Scopes.modifyHead
    rw [hframes]
    rfl
  rw [hscopes]
  exact h.setLocal hframes hmap var ⟨value, false⟩ (f frame) (hf frame)

theorem Refines.call (h : s.Refines) (hproper : s.Proper c) (hkeeps : s.KeepsScopes c) :
    ∃ t, s.call c = some t ∧ t.Refines := by
  cases c with
  | assign kind var value =>
    have hset := basicSetVariable_global s.ctx hproper value false
    refine ⟨⟨setGlobalMap kind var ⟨value, false⟩ s.ctx, s.scopes.setGlobal (kind, var) value⟩, ?_,
      h.setGlobal kind var ⟨value, false⟩⟩
    simp only [call, BasicCtx.call, hset, BasicScopes.call]
    rw [Scopes.assign, if_neg hkeeps]
    rfl
  | assignGlobal kind var value =>
    have hset := basicSetVariable_global s.ctx hproper value true
    refine ⟨⟨setGlobalMap kind var ⟨value, true⟩ s.ctx, s.scopes.setGlobal (kind, var) value⟩, ?_,
      h.setGlobal kind var ⟨value, true⟩⟩
    simp only [call, BasicCtx.call, hset, BasicScopes.call]
    rfl
  | assignLocal kind var value =>
    obtain ⟨ctx, hset, hctx⟩ := h.modifyHead hproper hkeeps value
      (fun frame => frame.set (kind, var) value) fun frame => rfl
    refine ⟨_, ?_, hctx⟩
    simp only [call, BasicCtx.call, hset]
    rfl
  | bind kind var value =>
    obtain ⟨ctx, hset, hctx⟩ := h.modifyHead hproper hkeeps value
      (fun frame => frame.bind (kind, var) value) fun frame => rfl
    refine ⟨_, ?_, hctx⟩
    simp only [call, BasicCtx.call, hset]
    rfl
  | enter => exact h.enter hproper
  | leave => exact h.leave hproper

/-! ## Runs -/

/-- In every state that such calls reach a read gives the innermost binding, and every further such
call returns. -/
theorem run_refines (hrun : Run call (fun s c => s.Proper c ∧ s.KeepsScopes c) init t) :
    (∀ kind var, basicGetVariable kind var t.ctx = match t.scopes.read (kind, var) with
      | some value => .ok value
      | none => .error (noSuchVariable kind var)) ∧
    ∀ c, t.Proper c → t.KeepsScopes c → (t.call c).isSome := by
  have hinit : init.Refines := ⟨rfl, by decide, fun _ _ => rfl, trivial⟩
  have h := hrun.invariant hinit fun h hallowed => h.call hallowed.1 hallowed.2
  refine ⟨h.read, fun c hproper hkeeps => ?_⟩
  obtain ⟨u, hcall, -⟩ := h.call hproper hkeeps
  rw [hcall]
  rfl

/-- A `LOCAL X = 99` in a call, when there is a global `X = 5`, and the return from the call. -/
def shadowed : BasicRun :=
  Run.next call (Run.next call (Run.next call (Run.next call init
    (.assign .int ['X'] (.int 5))) .enter) (.assignLocal .int ['X'] (.int 99))) .leave

/-- The global `X` has the value of the local one. -/
theorem shadowed_not_refined :
    Run call Proper init shadowed ∧ ¬ ∀ kind var, basicGetVariable kind var shadowed.ctx =
      match shadowed.scopes.read (kind, var) with
      | some value => .ok value
      | none => .error (noSuchVariable kind var) := by
  refine ⟨?_, fun h => ?_⟩
  · unfold shadowed
    refine Run.next_step
      (Run.next_step (Run.next_step (Run.next_step Run.refl ?_ ?_) ?_ ?_) ?_ ?_) ?_ ?_
    · exact (by decide : validVar .int ['X'] = true)
    · rfl
    · exact (by decide : 0 < 254)
    · rfl
    · exact (by decide : validVar .int ['X'] = true)
    · rfl
    · exact List.cons_ne_nil _ _
    · rfl
  · have hread : basicGetVariable .int ['X'] shadowed.ctx = .ok (.int 99) := rfl
    have hscopes : shadowed.scopes.read (.int, ['X']) = some (.int 5) := rfl
    have hX := h .int ['X']
    rw [hread, hscopes] at hX
    cases hX

def called : BasicRun :=
  Run.next call (Run.next call (Run.next call (Run.next call init
    (.assign .int ['Y'] (.int 5))) .enter) (.bind .int ['N'] (.int 10)))
      (.assignLocal .int ['X'] (.int 99))

theorem run_refines_called :
    (∀ kind var, basicGetVariable kind var called.ctx = match called.scopes.read (kind, var) with
      | some value => .ok value
      | none => .error (noSuchVariable kind var)) ∧
    ∀ c, called.Proper c → called.KeepsScopes c → (called.call c).isSome := by
  apply run_refines
  unfold called
  refine Run.next_step
    (Run.next_step (Run.next_step (Run.next_step Run.refl ⟨?_, ?_⟩ ?_) ⟨?_, ?_⟩ ?_)
    ⟨?_, ?_⟩ ?_) ⟨?_, ?_⟩ ?_
  · exact (by decide : validVar .int ['Y'] = true)
  · rintro ⟨frame, hframe, -⟩
    cases hframe
  · rfl
  · exact (by decide : 0 < 254)
  · trivial
  · rfl
  · exact (by decide : validVar .int ['N'] = true)
  · exact ⟨_, rfl, Or.inr rfl⟩
  · rfl
  · exact (by decide : validVar .int ['X'] = true)
  · exact ⟨_, rfl, Or.inr rfl⟩
  · rfl

end BasicRun

end RetroRocket
