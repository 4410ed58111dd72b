import RetroRocket.BuddyShare
import RetroRocket.StringHeap

/-!
# String assignment

`basic_set_string_variable` on the heap of a program, and the evaluation of string expressions as
far as it says where their values are. The value of a variable is its pointer, also in brackets.
What an operator or a function makes is in the string area, which is not reset before the statement
ends. The arguments of a builtin function are pointers until its handler reads them.
-/

namespace RetroRocket

/-! ## The allocator of a program -/

namespace BuddySession

variable {heap : BuddyAllocator} {h : StringHeap} {pools : List ℕ} {n ptr : ℕ}

/-- `buddy_malloc` hands out a block in the sense of the heap of strings. -/
theorem Inv.exists_mallocs (hinv : (⟨heap, h.live⟩ : BuddySession).Inv)
    (hpools : heap.FreshPools pools) :
    ∃ ptr heap', buddyMalloc heap n pools = some (ptr, heap') ∧
      (ptr ≠ 0 → ∃ h', h.Mallocs n ptr h' ∧ (⟨heap', h'.live⟩ : BuddySession).Inv) := by
  obtain ⟨ptr, heap', hmalloc, -, hinv'⟩ := hinv.malloc hpools
  refine ⟨ptr, heap', hmalloc, fun hptr => ?_⟩
  rw [if_neg hptr] at hinv'
  exact ⟨⟨h.bytes, (ptr, n) :: h.live, hinv'.apart⟩, ⟨rfl, fun _ _ _ _ _ => rfl⟩, hinv'⟩

/-- `buddy_free` gives back a block of the heap of strings. -/
theorem Inv.exists_frees (hinv : (⟨heap, h.live⟩ : BuddySession).Inv) (hptr : (ptr, n) ∈ h.live) :
    ∃ heap', buddyFree heap ptr = some heap' ∧
      ∃ h', h.Frees ptr h' ∧ (⟨heap', h'.live⟩ : BuddySession).Inv := by
  obtain ⟨heap', hfree, hinv'⟩ := hinv.free (Or.inr ⟨n, hptr⟩)
  exact ⟨heap', hfree, ⟨h.bytes, h.live.filter (·.1 ≠ ptr), hinv'.apart⟩,
    ⟨rfl, fun _ _ _ _ _ => rfl⟩, hinv'⟩

end BuddySession

/-! ## Variables and expressions -/

/-- `ub_var_string`, with the pointers to its name and to its value. -/
structure StringVariable where
  varname : ℕ
  value : ℕ
  valueLength : ℕ

structure StringStore (κ σ : Type) where
  heap : StringHeap
  strVariables : κ → Option StringVariable
  others : σ

@[ext] structure StringEnv (κ σ : Type) where
  value : κ → Option (CString × ℕ)
  others : σ

inductive StringValue (ν : Type) where
  | text (ref : StringRef) (length : ℕ)
  | number (n : ν)

inductive Operand (ν : Type) where
  | text (t : CString) (length : ℕ)
  | number (n : ν)

structure CallEffect (κ σ ν : Type) where
  assigned : List (κ × CString × ℕ)
  others : σ
  result : Operand ν

/-- Expressions in the order in which they are evaluated. The operands of a call are those of an
expression that leaves several values. A literal or a number is a call without operands, and so is
an FN whose arguments have been copied to its own variables. -/
inductive StringExpr (κ σ ν : Type) where
  | var (v : κ)
  | bracket (e : StringExpr κ σ ν)
  | concat (e f : StringExpr κ σ ν)
  | noOperands
  | operands (e f : StringExpr κ σ ν)
  | call (f : StringEnv κ σ → List (Operand ν) → CallEffect κ σ ν) (e : StringExpr κ σ ν)

variable {κ σ ν : Type}

def Operand.toValue : Operand ν → StringValue ν
  | .text t length => .text (.area t) length
  | .number n => .number n

namespace StringStore

inductive ReadsOperand (h : StringHeap) : StringValue ν → Operand ν → Prop where
  | text {ref : StringRef} {t : CString} (length : ℕ) (hread : h.Reads ref t) :
      ReadsOperand h (.text ref length) (.text t length)
  | number (n : ν) : ReadsOperand h (.number n) (.number n)

structure Contents (s : StringStore κ σ) (env : StringEnv κ σ) : Prop where
  found : ∀ v c, s.strVariables v = some c →
    ∃ t, env.value v = some (t, c.valueLength) ∧ HoldsString s.heap.bytes c.value t
  missing : ∀ v, s.strVariables v = none → env.value v = none
  others : s.others = env.others

variable [DecidableEq κ]

def setVariable (s : StringStore κ σ) (heap : StringHeap) (v : κ) (c : StringVariable) :
    StringStore κ σ :=
  { s with heap := heap, strVariables := Function.update s.strVariables v (some c) }

/-- `basic_set_string_variable`, with `update_string`. The new name is copied first. -/
inductive SetStringVariable (name : κ → CString) (s : StringStore κ σ) (v : κ) (value : StringRef)
    (length : ℕ) : StringStore κ σ → Prop where
  | found {c : StringVariable} {h₁ h₂ h₃ h₄ : StringHeap} {a b : ℕ}
      (hfound : s.strVariables v = some c)
      (hfree₁ : s.heap.Frees c.varname h₁) (hfree₂ : h₁.Frees c.value h₂)
      (hdup₁ : h₂.Strdups (.area (name v)) a h₃) (hdup₂ : h₃.Strdups value b h₄) :
      SetStringVariable name s v value length (s.setVariable h₄ v ⟨a, b, length⟩)
  | new {h₁ h₂ : StringHeap} {a b : ℕ} (hnew : s.strVariables v = none)
      (hdup₁ : s.heap.Strdups (.area (name v)) a h₁) (hdup₂ : h₁.Strdups value b h₂) :
      SetStringVariable name s v value length (s.setVariable h₂ v ⟨a, b, length⟩)

inductive SetAll (name : κ → CString) : StringStore κ σ → List (κ × CString × ℕ) →
    StringStore κ σ → Prop where
  | nil (s : StringStore κ σ) : SetAll name s [] s
  | cons {s s₁ s₂ : StringStore κ σ} {v : κ} {t : CString} {length : ℕ}
      {rest : List (κ × CString × ℕ)} (hset : SetStringVariable name s v (.area t) length s₁)
      (hrest : SetAll name s₁ rest s₂) : SetAll name s ((v, t, length) :: rest) s₂

inductive Evals (name : κ → CString) : StringExpr κ σ ν → StringStore κ σ → List (StringValue ν) →
    StringStore κ σ → Prop where
  | found {s : StringStore κ σ} {v : κ} {c : StringVariable} (hfound : s.strVariables v = some c) :
      Evals name (.var v) s [.text (.block c.value) c.valueLength] s
  | missing {s : StringStore κ σ} {v : κ} (hmissing : s.strVariables v = none) :
      Evals name (.var v) s [.text (.area ∅) 0] s
  | bracket {e : StringExpr κ σ ν} {s s₁ : StringStore κ σ} {vs : List (StringValue ν)}
      (heval : Evals name e s vs s₁) : Evals name (.bracket e) s vs s₁
  | concat {e f : StringExpr κ σ ν} {s s₁ s₂ : StringStore κ σ} {ref ref' : StringRef}
      {l l' : ℕ} {t t' : CString} (heval : Evals name e s [.text ref l] s₁)
      (heval' : Evals name f s₁ [.text ref' l'] s₂) (hread : s₂.heap.Reads ref t)
      (hread' : s₂.heap.Reads ref' t') :
      Evals name (.concat e f) s [.text (.area (t ++ t')) (l + l')] s₂
  | noOperands (s : StringStore κ σ) : Evals name .noOperands s [] s
  | operands {e f : StringExpr κ σ ν} {s s₁ s₂ : StringStore κ σ} {vs ws : List (StringValue ν)}
      (heval : Evals name e s vs s₁) (heval' : Evals name f s₁ ws s₂) :
      Evals name (.operands e f) s (vs ++ ws) s₂
  | call {f : StringEnv κ σ → List (Operand ν) → CallEffect κ σ ν} {e : StringExpr κ σ ν}
      {s s₁ s₂ : StringStore κ σ} {vs : List (StringValue ν)} {os : List (Operand ν)}
      {env : StringEnv κ σ} (heval : Evals name e s vs s₁) (hcontents : s₁.Contents env)
      (hread : List.Forall₂ (ReadsOperand s₁.heap) vs os)
      (hset : SetAll name { s₁ with others := (f env os).others } (f env os).assigned s₂) :
      Evals name (.call f e) s [(f env os).result.toValue] s₂

end StringStore

/-! ## The meaning of an expression -/

namespace StringEnv

variable [DecidableEq κ]

def set (env : StringEnv κ σ) (v : κ) (t : CString) (length : ℕ) : StringEnv κ σ :=
  { env with value := Function.update env.value v (some (t, length)) }

def setAll (env : StringEnv κ σ) (assigned : List (κ × CString × ℕ)) : StringEnv κ σ :=
  assigned.foldl (fun env p => env.set p.1 p.2.1 p.2.2) env

def after (env : StringEnv κ σ) (effect : CallEffect κ σ ν) : StringEnv κ σ :=
  setAll { env with others := effect.others } effect.assigned

end StringEnv

def concatOperands : List (Operand ν) → List (Operand ν) → List (Operand ν)
  | [.text t l], [.text t' l'] => [.text (t ++ t') (l + l')]
  | _, _ => []

namespace StringExpr

variable [DecidableEq κ]

def denote : StringExpr κ σ ν → StringEnv κ σ → List (Operand ν) × StringEnv κ σ
  | .var v, env =>
    let p := (env.value v).getD (∅, 0)
    ([.text p.1 p.2], env)
  | .bracket e, env => denote e env
  | .concat e f, env =>
    let r := denote e env
    let r' := denote f r.2
    (concatOperands r.1 r'.1, r'.2)
  | .noOperands, env => ([], env)
  | .operands e f, env =>
    let r := denote e env
    let r' := denote f r.2
    (r.1 ++ r'.1, r'.2)
  | .call f e, env =>
    let r := denote e env
    ([(f r.2 r.1).result], r.2.after (f r.2 r.1))

def assigned : StringExpr κ σ ν → StringEnv κ σ → List κ
  | .var _, _ => []
  | .bracket e, env => assigned e env
  | .concat e f, env => assigned e env ++ assigned f (denote e env).2
  | .noOperands, _ => []
  | .operands e f, env => assigned e env ++ assigned f (denote e env).2
  | .call f e, env =>
    assigned e env ++ (f (denote e env).2 (denote e env).1).assigned.map (·.1)

def pointers : StringExpr κ σ ν → StringEnv κ σ → List κ
  | .var v, env => if (env.value v).isSome then [v] else []
  | .bracket e, env => pointers e env
  | .concat _ _, _ => []
  | .noOperands, _ => []
  | .operands e f, env => pointers e env ++ pointers f (denote e env).2
  | .call _ _, _ => []

def Undisturbed : StringExpr κ σ ν → StringEnv κ σ → Prop
  | .var _, _ => True
  | .bracket e, env => Undisturbed e env
  | .concat e f, env => Undisturbed e env ∧ Undisturbed f (denote e env).2 ∧
      ∀ v ∈ pointers e env, v ∉ assigned f (denote e env).2
  | .noOperands, _ => True
  | .operands e f, env => Undisturbed e env ∧ Undisturbed f (denote e env).2 ∧
      ∀ v ∈ pointers e env, v ∉ assigned f (denote e env).2
  | .call _ e, env => Undisturbed e env

def WellTyped : StringExpr κ σ ν → StringEnv κ σ → Prop
  | .var _, _ => True
  | .bracket e, env => WellTyped e env
  | .concat e f, env => WellTyped e env ∧ WellTyped f (denote e env).2 ∧
      (∃ t l, (denote e env).1 = [.text t l]) ∧ ∃ t l, (denote f (denote e env).2).1 = [.text t l]
  | .noOperands, _ => True
  | .operands e f, env => WellTyped e env ∧ WellTyped f (denote e env).2
  | .call _ e, env => WellTyped e env

def Concatenates : StringExpr κ σ ν → StringEnv κ σ → Prop
  | .var _, _ => True
  | .bracket e, env => Concatenates e env
  | .concat e f, env => Concatenates e env ∧ Concatenates f (denote e env).2
  | .noOperands, _ => False
  | .operands _ _, _ => False
  | .call _ e, env => Undisturbed e env

end StringExpr

end RetroRocket
