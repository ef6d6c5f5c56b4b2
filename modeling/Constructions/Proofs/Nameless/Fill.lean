import Constructions.Proofs.Coherence

/-!
# Names replaced by trees

`Nameless.fill` puts a tree for every free occurrence of a name.  Resolving a name to an index
(`Expr.erase_index`) and substituting for it are both instances.

* `fill_comm`, `fill_fill` -- two names are filled in either order, and one by way of another.
* `subst_fill` -- a substitution that leaves the tree alone acts on what is put in.
* `Expr.erase_index` -- resolving a name is filling it with an index, as long as no occurrence of
  the name stands below a binder of that name.
-/

namespace Constructions

namespace Nameless

/-- The tree `s` for every free occurrence of `x`, lifted over the binders around it. -/
def fill (x : String) : (e s : Nameless) → Nameless
  | idx n, _ => idx n
  | stray n, _ => stray n
  | const y, s => if y = x then s else const y
  | lam A e, s => lam (A.fill x s) (e.fill x s.lift)
  | pi A B, s => pi (A.fill x s) (B.fill x s.lift)
  | app f a, s => app (f.fill x s) (a.fill x s)
  | star, _ => star
  | box, _ => box
  | unknown, _ => unknown

@[simp] theorem fill_const_self (x : String) (s : Nameless) : (const x).fill x s = s := if_pos rfl

theorem fill_const_of_ne {x y : String} (h : y ≠ x) (s : Nameless) :
    (const y).fill x s = const y := if_neg h

/-! ## 1. Names -/

/-- A name that does not occur is not filled. -/
theorem fill_of_not_mem {x : String} {e : Nameless} (h : x ∉ e.names) (s : Nameless) :
    e.fill x s = e := by
  induction e generalizing s with
  | const y =>
    have hne : y ≠ x := fun heq => h (by rw [heq]; exact List.mem_singleton_self x)
    exact fill_const_of_ne hne s
  | lam A e ihA ihe | pi A e ihA ihe | app A e ihA ihe =>
    simp only [names, List.mem_append, not_or] at h
    simp only [fill, ihA h.1, ihe h.2]
  | _ => rfl

/-- Filling takes the name away and brings the names of what is put in. -/
theorem mem_names_fill {x y : String} {e s : Nameless} (h : y ∈ (e.fill x s).names) :
    y ∈ e.names ∧ y ≠ x ∨ y ∈ s.names := by
  induction e generalizing s with
  | const z =>
    by_cases hz : z = x
    · rw [hz, fill_const_self] at h
      exact .inr h
    · rw [fill_const_of_ne hz] at h
      have hyz : y = z := List.mem_singleton.mp h
      exact .inl ⟨h, hyz ▸ hz⟩
  | lam A e ihA ihe | pi A e ihA ihe =>
    simp only [fill, names, List.mem_append] at h ⊢
    rcases h with h | h
    · exact (ihA h).imp (fun h => ⟨.inl h.1, h.2⟩) id
    · have hs := ihe h
      rw [lift, names_rename] at hs
      exact hs.imp (fun h => ⟨.inr h.1, h.2⟩) id
  | app f a ihf iha =>
    simp only [fill, names, List.mem_append] at h ⊢
    rcases h with h | h
    · exact (ihf h).imp (fun h => ⟨.inl h.1, h.2⟩) id
    · exact (iha h).imp (fun h => ⟨.inr h.1, h.2⟩) id
  | _ => cases h

/-- A name filled with itself. -/
theorem fill_self (x : String) (e : Nameless) : e.fill x (const x) = e := by
  induction e with
  | const y =>
    by_cases hy : y = x
    · rw [hy, fill_const_self]
    · exact fill_const_of_ne hy _
  | lam A e ihA ihe | pi A e ihA ihe => simp only [fill, lift, rename, ihA, ihe]
  | app f a ihf iha => simp only [fill, ihf, iha]
  | _ => rfl

/-- **Two names are filled in either order**, when neither occurs in what the other is filled
    with. -/
theorem fill_comm {x y : String} (hxy : x ≠ y) {r s : Nameless} (hr : y ∉ r.names)
    (hs : x ∉ s.names) (e : Nameless) : (e.fill x r).fill y s = (e.fill y s).fill x r := by
  have hlift {z : String} {t : Nameless} (h : z ∉ t.names) : z ∉ t.lift.names := by
    rwa [lift, names_rename]
  induction e generalizing r s with
  | const z =>
    by_cases hzx : z = x
    · rw [hzx, fill_const_self, fill_const_of_ne hxy, fill_const_self, fill_of_not_mem hr]
    · by_cases hzy : z = y
      · rw [hzy, fill_const_self, fill_const_of_ne hxy.symm, fill_const_self, fill_of_not_mem hs]
      · rw [fill_const_of_ne hzx, fill_const_of_ne hzy, fill_const_of_ne hzx]
  | lam A e ihA ihe => simp only [fill, ihA hr hs, ihe (hlift hr) (hlift hs)]
  | pi A B ihA ihB => simp only [fill, ihA hr hs, ihB (hlift hr) (hlift hs)]
  | app f a ihf iha => simp only [fill, ihf hr hs, iha hr hs]
  | _ => rfl

/-- A name filled by way of a name that does not occur. -/
theorem fill_fill (x : String) {z : String} {e : Nameless} (hz : z ∉ e.names) (s : Nameless) :
    (e.fill x (const z)).fill z s = e.fill x s := by
  induction e generalizing s with
  | const y =>
    have hyz : y ≠ z := fun heq => hz (by rw [heq]; exact List.mem_singleton_self z)
    by_cases hy : y = x
    · rw [hy, fill_const_self, fill_const_self, fill_const_self]
    · rw [fill_const_of_ne hy, fill_const_of_ne hy, fill_const_of_ne hyz]
  | lam A e ihA ihe | pi A e ihA ihe =>
    simp only [names, List.mem_append, not_or] at hz
    simp only [fill, show (const z).lift = const z from rfl, ihA hz.1, ihe hz.2]
  | app f a ihf iha =>
    simp only [names, List.mem_append, not_or] at hz
    simp only [fill, ihf hz.1, iha hz.2]
  | _ => rfl

/-! ## 2. Indices -/

/-- A substitution that leaves the tree alone acts on what is put in. -/
theorem subst_fill {k : Nat} {σ : Nat → Nameless} (hσ : ∀ n < k, σ n = idx n) {e : Nameless}
    (he : e.Below k) (x : String) (s : Nameless) :
    (e.fill x s).subst σ = e.fill x (s.subst σ) := by
  have hup {k : Nat} {σ : Nat → Nameless} (h : ∀ n < k, σ n = idx n) :
      ∀ n < k + 1, up σ n = idx n := by
    intro n hn
    cases n with
    | zero => rfl
    | succ n =>
      rw [up_succ, h n (by omega)]
      rfl
  induction e generalizing k σ s with
  | idx n => exact hσ n he
  | const y =>
    by_cases hy : y = x
    · rw [hy, fill_const_self, fill_const_self]
    · rw [fill_const_of_ne hy, fill_const_of_ne hy, subst]
  | lam A e ihA ihe => simp only [fill, subst, ihA hσ he.1, ihe (hup hσ) he.2, subst_lift]
  | pi A B ihA ihB => simp only [fill, subst, ihA hσ he.1, ihB (hup hσ) he.2, subst_lift]
  | app f a ihf iha => simp only [fill, subst, ihf hσ he.1, iha hσ he.2]
  | _ => rfl

/-- A name of a closed tree, resolved to the innermost index, is filled by an instance. -/
theorem inst_fill {e : Nameless} (he : e.Below 0) (x : String) (a : Nameless) :
    (e.fill x (idx 0)).inst a = e.fill x a :=
  subst_fill (fun n hn => absurd hn (Nat.not_lt_zero n)) he x (idx 0)

end Nameless

/-! ## 3. Resolving a name -/

namespace Expr

/-- The names of the binders around an expression do not occur free in it. -/
theorem Unshadowed.not_mem_freeNames {σ : List Binder} {e : Expr} (h : e.Unshadowed σ) {x : String}
    (hx : .named x ∈ σ) : x ∉ e.freeNames := by
  induction e generalizing σ with
  | var r =>
    cases r with
    | free y =>
      intro hy
      rw [List.mem_singleton.mp hy] at hx
      exact h hx
    | bound i => exact List.not_mem_nil
  | lam b A e ihA ihe | pi b A e ihA ihe =>
    rw [freeNames, List.mem_append, not_or]
    exact ⟨ihA h.1 hx, ihe h.2 (List.mem_cons_of_mem b hx)⟩
  | app f a ihf iha =>
    rw [freeNames, List.mem_append, not_or]
    exact ⟨ihf h.1 hx, iha h.2 hx⟩
  | _ => exact List.not_mem_nil

/-- **Resolving a name fills it with an index.** -/
theorem erase_index {σ : List Binder} {e : Expr} (h : e.Unshadowed σ) (k : Nat) (x : String) :
    (e.index ⟨k, x⟩).erase = e.erase.fill x (.idx k) := by
  have hbody {σ : List Binder} {b : Binder} {e : Expr} (k : Nat) (h : e.Unshadowed (b :: σ))
      (ih : (e.index ⟨(k + 1 : Nat), x⟩).erase = e.erase.fill x (.idx (k + 1))) :
      (if b.captures x then e else e.index (Idx.inc ⟨k, x⟩)).erase
        = e.erase.fill x (.idx (k + 1)) := by
    split
    · -- the binder has taken all occurrences of the name
      rename_i hb
      rw [captures_iff] at hb
      have hx : x ∉ e.erase.names := by
        rw [names_erase]
        exact h.not_mem_freeNames (hb ▸ List.mem_cons_self)
      rw [Nameless.fill_of_not_mem hx]
    · exact ih
  induction e generalizing σ k with
  | var r =>
    cases r with
    | free y =>
      by_cases hy : y = x
      · simp [index, erase, hy]
      · simp [index, erase, hy, Nameless.fill_const_of_ne hy]
    | bound i =>
      rcases Nameless.ofDepth_cases i.depth with ⟨n, hn⟩ | ⟨n, hn⟩ <;>
        simp [index, erase, hn, Nameless.fill]
  | lam b A e ihA ihe =>
    exact congr (congrArg Nameless.lam (ihA h.1 k)) (hbody k h.2 (ihe h.2 (k + 1)))
  | pi b A B ihA ihB =>
    exact congr (congrArg Nameless.pi (ihA h.1 k)) (hbody k h.2 (ihB h.2 (k + 1)))
  | app f a ihf iha => simp only [index, erase, Nameless.fill, ihf h.1, iha h.2]
  | _ => rfl

end Expr

end Constructions
