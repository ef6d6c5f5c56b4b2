import Constructions.Assoc
import Constructions.Proofs.Named.Basic

/-!
# The grammar of written expressions

    expr   ::= binder | atom⁺ [binder]
    binder ::= (λ | Π) name : expr . expr
    atom   ::= name | * | □ | ( expr )

Application goes to the left, and a binder at the end of an expression is the last argument.

* `Lexeme` -- the signs and names of a text; `lexemes` -- a text taken apart, blanks left out.
* `Skeleton` -- what is written: the kinds of the nodes, with the displayed names.
* `Reads` -- the grammar, as rules; `ReadsAs s t` -- the text `s` is written for `t`.
* `ReadsAs.unique` -- **the grammar is unambiguous**, no text is written for two skeletons.
-/

namespace Constructions

/-! ## 1. Signs and names -/

/-- A sign or a name in a text. -/
inductive Lexeme
  | name (x : String)
  /-- `λ` or `Π` -/
  | mark (q : Quantifier)
  | colon
  | dot
  | opening
  | closing
  | star
  | box
deriving DecidableEq, Repr

/-- The characters that stand for themselves, each with its sign; a blank only separates. -/
def Lexeme.reserved : List (Char × List Lexeme) :=
  [(' ', []), ('(', [.opening]), (')', [.closing]), (':', [.colon]), ('.', [.dot]),
    ('λ', [.mark .lam]), ('Π', [.mark .pi]), ('*', [.star]), ('□', [.box])]

/-- A text that is read as one name. -/
def IsWord (x : String) : Prop := x ≠ "" ∧ ∀ c ∈ x.toList, c ∉ Lexeme.reserved.map (·.1)

instance (x : String) : Decidable (IsWord x) :=
  decidable_of_iff
    ((x != "" && x.toList.all fun c => !(Lexeme.reserved.map (·.1)).contains c) = true)
    (by simp only [IsWord, Bool.and_eq_true, bne_iff_ne, List.all_eq_true, Bool.not_eq_true',
      List.contains_eq_mem, decide_eq_false_iff_not])

namespace Lexeme

/-- The name that the characters `w` make, if there are any. -/
def pending (w : List Char) : List Lexeme := if w = [] then [] else [name (String.ofList w)]

/-- Takes characters apart, where `w` are those of a name that has begun. -/
def scan (w : List Char) : List Char → List Lexeme
  | [] => pending w
  | c :: cs =>
    match reserved.lookup c with
    | some signs => pending w ++ (signs ++ scan [] cs)
    | none => scan (w ++ [c]) cs

theorem lookup_reserved_eq_none {c : Char} :
    reserved.lookup c = none ↔ c ∉ reserved.map (·.1) := by
  rw [List.lookup_eq_none_iff]
  simp only [bne_iff_ne, List.mem_map, not_exists, not_and]
  exact forall_congr' fun p => forall_congr' fun _ => ne_comm

theorem scan_reserved {c : Char} {signs : List Lexeme} (hc : reserved.lookup c = some signs)
    (w cs : List Char) : scan w (c :: cs) = pending w ++ (signs ++ scan [] cs) := by
  simp only [scan, hc]

theorem scan_not_reserved {c : Char} (hc : reserved.lookup c = none) (w cs : List Char) :
    scan w (c :: cs) = scan (w ++ [c]) cs := by
  simp only [scan, hc]

/-- A reserved character ends what stands before it. -/
theorem scan_append_reserved {c : Char} {signs : List Lexeme}
    (hc : reserved.lookup c = some signs) (w cs ds : List Char) :
    scan w (cs ++ c :: ds) = scan w cs ++ (signs ++ scan [] ds) := by
  induction cs generalizing w with
  | nil => exact scan_reserved hc w ds
  | cons d cs ih =>
    rw [List.cons_append]
    cases hd : reserved.lookup d with
    | some marks =>
      rw [scan_reserved hd, scan_reserved hd, ih, List.append_assoc, List.append_assoc]
    | none => rw [scan_not_reserved hd, scan_not_reserved hd, ih]

theorem scan_word {v : List Char} (hv : ∀ c ∈ v, c ∉ reserved.map (·.1)) (w : List Char) :
    scan w v = pending (w ++ v) := by
  induction v generalizing w with
  | nil => rw [List.append_nil, scan]
  | cons c v ih =>
    have hc : reserved.lookup c = none := lookup_reserved_eq_none.mpr (hv c List.mem_cons_self)
    have hv' : ∀ d ∈ v, d ∉ reserved.map (·.1) := fun d hd => hv d (List.mem_cons_of_mem c hd)
    rw [scan_not_reserved hc, ih hv', List.append_assoc, List.singleton_append]

/-- The signs of a text hold the opening parentheses of the text, no more and no fewer. -/
theorem count_scan (w cs : List Char) : (scan w cs).count .opening = cs.count '(' := by
  have hpending (w : List Char) : (pending w).count .opening = 0 := by
    unfold pending
    split <;> rfl
  have hsigns : ∀ p ∈ reserved, p.2.count Lexeme.opening = [p.1].count '(' := by decide
  induction cs generalizing w with
  | nil => exact hpending w
  | cons c cs ih =>
    rw [← List.singleton_append, List.count_append]
    cases hc : reserved.lookup c with
    | some signs =>
      have hmem : (c, signs) ∈ reserved := (Assoc.lookup_eq_some_iff_mem (by decide)).mp hc
      rw [List.singleton_append, scan_reserved hc, List.count_append, List.count_append, hpending,
        hsigns _ hmem, ih, Nat.zero_add]
    | none =>
      have hne : '(' ∉ [c] := by
        intro hmem
        rw [← List.mem_singleton.mp hmem] at hc
        exact absurd hc (by decide)
      rw [List.singleton_append, scan_not_reserved hc, ih, List.count_eq_zero.mpr hne, Nat.zero_add]

end Lexeme

/-- A text as its signs and names, in order. -/
def lexemes (s : String) : List Lexeme := Lexeme.scan [] s.toList

/-- A word is one name. -/
theorem lexemes_word {x : String} (h : IsWord x) : lexemes x = [.name x] := by
  have hne : x.toList ≠ [] := fun h0 => h.1 (String.toList_inj.mp h0)
  rw [lexemes, Lexeme.scan_word h.2, List.nil_append, Lexeme.pending, if_neg hne,
    String.ofList_toList]

theorem count_lexemes (s : String) : (lexemes s).count .opening = s.toList.count '(' :=
  Lexeme.count_scan [] s.toList

/-! ## 2. Rules -/

/-- An expression as it is written: the kinds of its nodes, with the displayed names.  A node of no
    known form has no text. -/
inductive Skeleton
  | var (x : String)
  /-- `λx : A . e` or `Πx : A . e` -/
  | bind (q : Quantifier) (x : String) (A e : Skeleton)
  | app (f a : Skeleton)
  | star
  | box
  | unknown
deriving DecidableEq, Repr

/-- What a part of a text may be. -/
inductive Phrase
  | expr
  | binder
  | atom
  /-- The arguments of `f`, which stands to their left. -/
  | args (f : Skeleton)

/-- `Reads p us t` -- the signs and names `us` are a phrase of kind `p`, written for `t`. -/
inductive Reads : Phrase → List Lexeme → Skeleton → Prop
  | name (x : String) : Reads .atom [.name x] (.var x)
  | star : Reads .atom [.star] .star
  | box : Reads .atom [.box] .box
  | group {us : List Lexeme} {t : Skeleton} (h : Reads .expr us t) :
      Reads .atom (.opening :: (us ++ [.closing])) t
  | binder (q : Quantifier) (x : String) {us vs : List Lexeme} {A e : Skeleton}
      (hA : Reads .expr us A) (he : Reads .expr vs e) :
      Reads .binder (.mark q :: .name x :: .colon :: (us ++ .dot :: vs)) (.bind q x A e)
  | bare {us : List Lexeme} {t : Skeleton} (h : Reads .binder us t) : Reads .expr us t
  | head {us vs : List Lexeme} {f t : Skeleton} (hf : Reads .atom us f)
      (h : Reads (.args f) vs t) : Reads .expr (us ++ vs) t
  | done (f : Skeleton) : Reads (.args f) [] f
  | arg {us vs : List Lexeme} {f a t : Skeleton} (ha : Reads .atom us a)
      (h : Reads (.args (.app f a)) vs t) : Reads (.args f) (us ++ vs) t
  | last {us : List Lexeme} {f b : Skeleton} (h : Reads .binder us b) :
      Reads (.args f) us (.app f b)

/-- The text is written for `t`. -/
def ReadsAs (s : String) (t : Skeleton) : Prop := Reads .expr (lexemes s) t

/-! ## 3. Unambiguity -/

/-- An atom begins with one of these. -/
def Lexeme.opensAtom : Lexeme → Bool
  | name _ | star | box | opening => true
  | _ => false

/-- An expression is over where one of these follows, or nothing. -/
def Lexeme.endsExpr : Lexeme → Bool
  | closing | dot => true
  | _ => false

namespace Reads

/-- Nothing of an expression can follow where `us` begins. -/
def Finished (us : List Lexeme) : Prop := ∀ k ∈ us.head?, k.endsExpr = true

theorem atom_cons {us : List Lexeme} {t : Skeleton} (h : Reads .atom us t) :
    ∃ k vs, us = k :: vs ∧ k.opensAtom = true := by
  cases h with
  | name x => exact ⟨_, _, rfl, rfl⟩
  | star => exact ⟨_, _, rfl, rfl⟩
  | box => exact ⟨_, _, rfl, rfl⟩
  | group h => exact ⟨_, _, rfl, rfl⟩

theorem binder_cons {us : List Lexeme} {t : Skeleton} (h : Reads .binder us t) :
    ∃ q vs, us = .mark q :: vs := by
  cases h with
  | binder q x hA he => exact ⟨q, _, rfl⟩

/-- No text begins with an atom and with a binder. -/
theorem atom_ne_binder {us vs r r' : List Lexeme} {t u : Skeleton} (h : Reads .atom us t)
    (k : Reads .binder vs u) : us ++ r ≠ vs ++ r' := by
  intro heq
  obtain ⟨l, us', rfl, hl⟩ := h.atom_cons
  obtain ⟨q, vs', rfl⟩ := k.binder_cons
  obtain ⟨rfl, _⟩ := List.cons.inj heq
  cases hl

/-- Where an expression is over, neither an argument nor a binder follows. -/
theorem Finished.not_atom {us r : List Lexeme} {t : Skeleton} (hfin : Finished (us ++ r))
    (h : Reads .atom us t) : False := by
  obtain ⟨k, vs, rfl, hk⟩ := h.atom_cons
  have hend : k.endsExpr = true := hfin k rfl
  cases k <;> simp_all [Lexeme.opensAtom, Lexeme.endsExpr]

theorem Finished.not_binder {us r : List Lexeme} {t : Skeleton} (hfin : Finished (us ++ r))
    (h : Reads .binder us t) : False := by
  obtain ⟨q, vs, rfl⟩ := h.binder_cons
  have hend : (Lexeme.mark q).endsExpr = true := hfin _ rfl
  cases hend

/-- **Two readings from the same place are the same**: an atom ends by itself, and any other phrase
    ends where an expression is over. -/
theorem unique {p : Phrase} {us us' r r' : List Lexeme} {t t' : Skeleton}
    (h : Reads p us t) (h' : Reads p us' t') (heq : us ++ r = us' ++ r')
    (hfin : p = .atom ∨ Finished r ∧ Finished r') : t = t' ∧ r = r' := by
  have hclosed (k : Lexeme) (hk : k.endsExpr = true) (r r' : List Lexeme) :
      Finished (k :: r) ∧ Finished (k :: r') :=
    ⟨fun l hl => Option.some.inj hl ▸ hk, fun l hl => Option.some.inj hl ▸ hk⟩
  -- on the first reading; the next lexeme decides which rule the second one can have used
  induction h generalizing us' r r' t' with
  | name x | star | box =>
    cases h' <;> cases heq
    exact ⟨rfl, rfl⟩
  | @group us t h ih =>
    cases h' with
    | @group us' _ h' =>
      have hrest : us ++ .closing :: r = us' ++ .closing :: r' := by simpa using heq
      obtain ⟨ht, hr⟩ := ih h' hrest (.inr (hclosed .closing rfl r r'))
      exact ⟨ht, (List.cons.inj hr).2⟩
    | _ => cases heq
  | @binder q x us vs A e hA he ihA ihe =>
    cases h' with
    | @binder q' x' us' vs' A' e' hA' he' =>
      have hfin' := hfin.resolve_left Phrase.noConfusion
      have hrest : (q = q' ∧ x = x') ∧ us ++ .dot :: (vs ++ r) = us' ++ .dot :: (vs' ++ r') := by
        simpa [and_assoc] using heq
      obtain ⟨⟨rfl, rfl⟩, hrest⟩ := hrest
      obtain ⟨rfl, hrest⟩ := ihA hA' hrest (.inr (hclosed .dot rfl _ _))
      obtain ⟨rfl, hr⟩ := ihe he' (List.cons.inj hrest).2 (.inr hfin')
      exact ⟨rfl, hr⟩
  | @bare us t h ih =>
    have hfin' := hfin.resolve_left Phrase.noConfusion
    cases h' with
    | bare h' => exact ih h' heq (.inr hfin')
    | head hf' h' =>
      rw [List.append_assoc] at heq
      exact absurd heq.symm (hf'.atom_ne_binder h)
  | @head us vs f t hf h ihf ih =>
    have hfin' := hfin.resolve_left Phrase.noConfusion
    rw [List.append_assoc] at heq
    cases h' with
    | bare h' => exact absurd heq (hf.atom_ne_binder h')
    | head hf' h' =>
      rw [List.append_assoc] at heq
      obtain ⟨rfl, hrest⟩ := ihf hf' heq (.inl rfl)
      exact ih h' hrest (.inr hfin')
  | done f =>
    have hfin' := hfin.resolve_left Phrase.noConfusion
    rw [List.nil_append] at heq
    subst heq
    cases h' with
    | done => exact ⟨rfl, rfl⟩
    | arg ha' h' =>
      rw [List.append_assoc] at hfin'
      exact (hfin'.1.not_atom ha').elim
    | last h' => exact (hfin'.1.not_binder h').elim
  | @arg us vs f a t ha h iha ih =>
    have hfin' := hfin.resolve_left Phrase.noConfusion
    rw [List.append_assoc] at heq
    cases h' with
    | done =>
      rw [List.nil_append] at heq
      rw [← heq] at hfin'
      exact (hfin'.2.not_atom ha).elim
    | arg ha' h' =>
      rw [List.append_assoc] at heq
      obtain ⟨rfl, hrest⟩ := iha ha' heq (.inl rfl)
      exact ih h' hrest (.inr hfin')
    | last h' => exact absurd heq (ha.atom_ne_binder h')
  | @last us f b h ih =>
    have hfin' := hfin.resolve_left Phrase.noConfusion
    cases h' with
    | done =>
      rw [List.nil_append] at heq
      rw [← heq] at hfin'
      exact (hfin'.2.not_binder h).elim
    | arg ha' h' =>
      rw [List.append_assoc] at heq
      exact absurd heq.symm (ha'.atom_ne_binder h)
    | last h' =>
      obtain ⟨rfl, hr⟩ := ih h' heq (.inr hfin')
      exact ⟨rfl, hr⟩

end Reads

/-- **No text is written for two skeletons.** -/
theorem ReadsAs.unique {s : String} {t t' : Skeleton} (h : ReadsAs s t) (h' : ReadsAs s t') :
    t = t' := by
  have hnil : Reads.Finished [] := fun k hk => by cases hk
  exact (Reads.unique h h' rfl (.inr ⟨hnil, hnil⟩)).1

end Constructions
