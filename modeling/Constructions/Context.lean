import Constructions.Assoc
import Constructions.TypingError

/-!
# Contexts

A context gives names their types.  Its declarations stand in the order in which the names were
first declared.

* `Ctx.put` -- declares a name; a second declaration must agree up to displayed names, and then the
  later type is kept in the earlier place.
* `Ctx.get`, `Ctx.remove` -- look a name up and drop it; both fail on a name that is not declared.
* `Ctx.same` -- two contexts with the same declarations, in any order.
-/

namespace Constructions

/-- The declarations `x : T` in order. -/
structure Ctx where
  entries : List (String × Expr)
deriving DecidableEq, Repr, Inhabited

namespace Ctx

/-- No declaration. -/
def empty : Ctx := ⟨[]⟩

/-- The type that a name is declared with. -/
def get? (Γ : Ctx) (x : String) : Option Expr := Γ.entries.lookup x

/-- Whether a name is declared. -/
def contains (Γ : Ctx) (x : String) : Bool := (Γ.get? x).isSome

/-- The number of declarations. -/
def size (Γ : Ctx) : Nat := Γ.entries.length

/-- Declares `x : T`. -/
def put (Γ : Ctx) (x : String) (T : Expr) : Except Fault Ctx :=
  match Γ.get? x with
  | some old =>
    if old.alphaEq T then .ok ⟨Assoc.put x T Γ.entries⟩ else .error (.redeclaration x old T)
  | none => .ok ⟨Assoc.put x T Γ.entries⟩

/-- A declaration that agrees with an earlier one, or is the first, succeeds. -/
theorem put_of_agrees {Γ : Ctx} {x : String} {T : Expr}
    (h : ∀ old, Γ.get? x = some old → old.alphaEq T = true) :
    Γ.put x T = .ok ⟨Assoc.put x T Γ.entries⟩ := by
  unfold put
  split
  · rename_i old hold
    rw [if_pos (h old hold)]
  · rfl

/-- A declaration that disagrees with an earlier one fails. -/
theorem put_of_disagrees {Γ : Ctx} {x : String} {old T : Expr} (hold : Γ.get? x = some old)
    (h : old.alphaEq T = false) : Γ.put x T = .error (.redeclaration x old T) := by
  unfold put
  simp [hold, h]

/-- A declaration that succeeds agrees with an earlier one and takes its place, or goes last. -/
theorem put_eq_ok {Γ Δ : Ctx} {x : String} {T : Expr} (h : Γ.put x T = .ok Δ) :
    (∀ old, Γ.get? x = some old → old.alphaEq T = true) ∧ Δ = ⟨Assoc.put x T Γ.entries⟩ := by
  have hagrees : ∀ old, Γ.get? x = some old → old.alphaEq T = true := by
    intro old hold
    cases heq : old.alphaEq T with
    | true => rfl
    | false =>
      rw [put_of_disagrees hold heq] at h
      cases h
  rw [put_of_agrees hagrees] at h
  cases h
  exact ⟨hagrees, rfl⟩

/-- A declaration fails only where it disagrees with an earlier one. -/
theorem put_eq_error {Γ : Ctx} {x : String} {T : Expr} {fault : Fault}
    (h : Γ.put x T = .error fault) :
    ∃ old, Γ.get? x = some old ∧ old.alphaEq T = false ∧ fault = .redeclaration x old T := by
  unfold put at h
  split at h
  · rename_i old hold
    split at h
    · cases h
    · rename_i hne
      cases h
      exact ⟨old, hold, Bool.eq_false_iff.mpr hne, rfl⟩
  · cases h

/-- After a declaration, a name has the type it was given. -/
theorem get?_of_put {Γ Δ : Ctx} {x : String} {T : Expr} (h : Γ.put x T = .ok Δ) (y : String) :
    Δ.get? y = if y = x then some T else Γ.get? y := by
  obtain ⟨_, rfl⟩ := put_eq_ok h
  unfold get?
  split
  · rename_i hy
    subst hy
    exact Assoc.lookup_put_self ..
  · rename_i hy
    exact Assoc.lookup_put_of_ne hy ..

/-- Declares a list of names in turn. -/
def ofList (entries : List (String × Expr)) : Except Fault Ctx :=
  entries.foldlM (fun Γ (x, T) => Γ.put x T) empty

/-- The type of a declared name. -/
def get (Γ : Ctx) (x : String) : Except Fault Expr :=
  match Γ.get? x with
  | some T => .ok T
  | none => .error (.typing (.unknownVariable x))

theorem get_eq_ok_iff {Γ : Ctx} {x : String} {T : Expr} : Γ.get x = .ok T ↔ Γ.get? x = some T := by
  unfold get
  cases Γ.get? x <;> simp

/-- The context without the declaration of `x`. -/
def without (Γ : Ctx) (x : String) : Ctx := ⟨Assoc.erase x Γ.entries⟩

theorem get?_without (Γ : Ctx) (x y : String) :
    (Γ.without x).get? y = if y = x then none else Γ.get? y :=
  Assoc.lookup_erase x y Γ.entries

/-- What is left after a declaration is dropped was there before. -/
theorem get?_of_without {Γ : Ctx} {x y : String} {T : Expr}
    (h : (Γ.without x).get? y = some T) : Γ.get? y = some T := by
  rw [get?_without] at h
  split at h
  · cases h
  · exact h

/-- Drops the declaration of a declared name. -/
def remove (Γ : Ctx) (x : String) : Except Fault Ctx :=
  if Γ.contains x then .ok (Γ.without x) else .error (.typing (.unknownVariable x))

/-- The context of a binder's body: a named binder declares its name, the anonymous one nothing. -/
def enter (Γ : Ctx) (b : Binder) (A : Expr) : Except Fault Ctx :=
  match b with
  | .named x => Γ.put x A
  | .anonymous => .ok Γ

/-- A declaration below a binder is that of the binder or was there before. -/
theorem get?_of_enter {Γ Δ : Ctx} {b : Binder} {A T : Expr} {y : String} (h : Γ.enter b A = .ok Δ)
    (hy : Δ.get? y = some T) : b = .named y ∧ T = A ∨ Γ.get? y = some T := by
  cases b with
  | anonymous =>
    cases h
    exact .inr hy
  | named x =>
    rw [get?_of_put h] at hy
    split at hy
    · rename_i heq
      cases hy
      exact .inl ⟨congrArg Binder.named heq.symm, rfl⟩
    · exact .inr hy

/-- Every declaration of `Γ` is one of `Δ`, up to displayed names. -/
def within (Γ Δ : Ctx) : Bool :=
  Γ.entries.all fun (x, T) =>
    match Δ.get? x with
    | some U => T.alphaEq U
    | none => false

/-- The same declarations, in any order and up to displayed names. -/
def same (Γ Δ : Ctx) : Bool := Γ.size == Δ.size && Γ.within Δ

/-- The text of a context, if its types have one: the declarations in braces. -/
def render (Γ : Ctx) : Option String := do
  let texts ← Γ.entries.mapM fun (x, T) => T.render.map (x ++ " : " ++ ·)
  return "\x7b" ++ ", ".intercalate texts ++ "\x7d"

end Ctx

end Constructions
