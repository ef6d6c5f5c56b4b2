import Constructions.Term.Render
import Constructions.Proofs.Grammar

/-!
# Rendered expressions

The text of an expression is one of the grammar's, and the shortest in parentheses.

* `Expr.skeleton` -- what the text of an expression shows of it; `Expr.Legible` -- its names can be
  told from signs.
* `Skeleton.print` -- the signs and names of a text at a place in an application;
  `lexemes_fmt` -- these are the signs and names of a rendered expression.
* `Skeleton.Readable` -- what is printed at each of the four places is read back there, as what the
  place asks for.
* `Expr.render_unambiguous` -- **expressions with one text have one skeleton.**
* `Reads.least_le` -- no text of a phrase has fewer parentheses than the printed one.
* `Expr.render_minimal` -- **no pair of parentheses in a text can be left out.**
-/

namespace Constructions

open Lexeme (reserved scan scan_reserved scan_append_reserved)

/-! ## 1. Signs and names of a text -/

namespace Skeleton

/-- Puts lexemes in parentheses where `b` holds. -/
def enclose (b : Bool) (us : List Lexeme) : List Lexeme :=
  if b then .opening :: (us ++ [.closing]) else us

/-- The signs and names of a text; `left` and `arg` say where it stands, as for `Expr.fmt`. -/
def print : Bool → Bool → Skeleton → List Lexeme
  | _, _, var x => [.name x]
  | left, _, bind q x A e =>
    enclose left
      (.mark q :: .name x :: .colon :: (A.print false false ++ .dot :: e.print false false))
  | left, arg, app f a => enclose arg (f.print true false ++ a.print (left && !arg) true)
  | _, _, star => [.star]
  | _, _, box => [.box]
  | _, _, unknown => []

end Skeleton

/-- The character of a binder. -/
def Quantifier.text : Quantifier → String
  | lam => "λ"
  | pi => "Π"

namespace Expr

/-- The expression as its text shows it; the anonymous binder shows `_`. -/
def skeleton : Expr → Skeleton
  | var r => .var r.name
  | lam b A e => .bind .lam b.name A.skeleton e.skeleton
  | pi b A B => .bind .pi b.name A.skeleton B.skeleton
  | app f a => .app f.skeleton a.skeleton
  | star => .star
  | box => .box
  | unknown => .unknown

/-- Every node is of a known form and every displayed name is a word. -/
def Legible : Expr → Prop
  | var r => IsWord r.name
  | lam b A e => IsWord b.name ∧ A.Legible ∧ e.Legible
  | pi b A B => IsWord b.name ∧ A.Legible ∧ B.Legible
  | app f a => f.Legible ∧ a.Legible
  | star => True
  | box => True
  | unknown => False

instance decidableLegible : (e : Expr) → Decidable e.Legible
  | var r => inferInstanceAs (Decidable (IsWord r.name))
  | lam b A e =>
    have := decidableLegible A
    have := decidableLegible e
    inferInstanceAs (Decidable (IsWord b.name ∧ A.Legible ∧ e.Legible))
  | pi b A B =>
    have := decidableLegible A
    have := decidableLegible B
    inferInstanceAs (Decidable (IsWord b.name ∧ A.Legible ∧ B.Legible))
  | app f a =>
    have := decidableLegible f
    have := decidableLegible a
    inferInstanceAs (Decidable (f.Legible ∧ a.Legible))
  | star => .isTrue trivial
  | box => .isTrue trivial
  | unknown => .isFalse id

theorem lexemes_parenthesize (b : Bool) (s : String) :
    lexemes (parenthesize b s) = Skeleton.enclose b (lexemes s) := by
  cases b with
  | false => rfl
  | true =>
    have hchars : ("(" ++ s ++ ")").toList = '(' :: (s.toList ++ ')' :: []) := by simp
    show scan [] ("(" ++ s ++ ")").toList = .opening :: (lexemes s ++ [.closing])
    rw [hchars, scan_reserved rfl, scan_append_reserved rfl]
    rfl

theorem lexemes_binderText (q : Quantifier) {b : Binder} (hb : IsWord b.name) (A e : String) :
    lexemes (binderText q.text b A e)
      = .mark q :: .name b.name :: .colon :: (lexemes A ++ .dot :: lexemes e) := by
  have hchars : (binderText q.text b A e).toList
      = q.text.toList ++ (b.name.toList ++ ' ' :: ':' :: ' ' ::
          (A.toList ++ ' ' :: '.' :: ' ' :: e.toList)) := by
    simp [binderText]
  have hmark : ∃ c, q.text.toList = [c] ∧ reserved.lookup c = some [.mark q] := by
    cases q
    · exact ⟨'λ', rfl, rfl⟩
    · exact ⟨'Π', rfl, rfl⟩
  obtain ⟨c, hc, hsign⟩ := hmark
  have hname : scan [] b.name.toList = [.name b.name] := lexemes_word hb
  rw [lexemes, hchars, hc, List.singleton_append, scan_reserved hsign, scan_append_reserved rfl,
    hname, scan_reserved rfl, scan_reserved rfl, scan_append_reserved rfl, scan_reserved rfl,
    scan_reserved rfl]
  rfl

theorem lexemes_append_blank (s t : String) :
    lexemes (s ++ " " ++ t) = lexemes s ++ lexemes t := by
  have hchars : (s ++ " " ++ t).toList = s.toList ++ ' ' :: t.toList := by simp
  rw [lexemes, hchars, scan_append_reserved rfl]
  rfl

/-- A legible expression has a text, whose signs and names are those of its skeleton. -/
theorem lexemes_fmt {e : Expr} (he : e.Legible) (left arg : Bool) :
    ∃ text, e.fmt left arg = some text ∧ lexemes text = e.skeleton.print left arg := by
  induction e generalizing left arg with
  | var r => exact ⟨r.name, rfl, lexemes_word he⟩
  | lam b A e ihA ihe =>
    obtain ⟨hb, hA, he⟩ := he
    obtain ⟨s, hs, hA⟩ := ihA hA false false
    obtain ⟨t, ht, he⟩ := ihe he false false
    refine ⟨parenthesize left (binderText "λ" b s t), by simp [fmt, hs, ht], ?_⟩
    rw [lexemes_parenthesize, skeleton, Skeleton.print, ← hA, ← he]
    exact congrArg _ (lexemes_binderText .lam hb s t)
  | pi b A B ihA ihB =>
    obtain ⟨hb, hA, hB⟩ := he
    obtain ⟨s, hs, hA⟩ := ihA hA false false
    obtain ⟨t, ht, hB⟩ := ihB hB false false
    refine ⟨parenthesize left (binderText "Π" b s t), by simp [fmt, hs, ht], ?_⟩
    rw [lexemes_parenthesize, skeleton, Skeleton.print, ← hA, ← hB]
    exact congrArg _ (lexemes_binderText .pi hb s t)
  | app f a ihf iha =>
    obtain ⟨hf, ha⟩ := he
    obtain ⟨s, hs, hf⟩ := ihf hf true false
    obtain ⟨t, ht, ha⟩ := iha ha (left && !arg) true
    refine ⟨parenthesize arg (s ++ " " ++ t), by simp [fmt, hs, ht], ?_⟩
    rw [lexemes_parenthesize, lexemes_append_blank, hf, ha]
    rfl
  | star => exact ⟨"*", rfl, rfl⟩
  | box => exact ⟨"□", rfl, rfl⟩
  | unknown => exact he.elim

end Expr

/-! ## 2. Reading back -/

/-- What is printed for `t` at each place is read back as `t` there. -/
structure Skeleton.Readable (t : Skeleton) : Prop where
  /-- As an argument that others follow. -/
  atom : Reads .atom (t.print true true) t
  /-- As the function of an application. -/
  function : ∀ us u, Reads (.args t) us u → Reads .expr (t.print true false ++ us) u
  /-- As the last argument. -/
  last : ∀ f, Reads (.args f) (t.print false true) (.app f t)
  /-- On its own. -/
  expr : Reads .expr (t.print false false) t

namespace Skeleton.Readable

theorem of_leaf {t : Skeleton} {us : List Lexeme} (hprint : ∀ left arg, t.print left arg = us)
    (h : Reads .atom us t) : t.Readable := by
  refine ⟨hprint true true ▸ h, fun vs u hu => ?_, fun f => ?_, ?_⟩
  · rw [hprint]
    exact h.head hu
  · rw [hprint, ← List.append_nil us]
    exact h.arg (.done _)
  · rw [hprint, ← List.append_nil us]
    exact h.head (.done t)

theorem bind (q : Quantifier) (x : String) {A e : Skeleton} (hA : A.Readable) (he : e.Readable) :
    (Skeleton.bind q x A e).Readable := by
  have hb := Reads.binder q x hA.expr he.expr
  exact ⟨hb.bare.group, fun us u hu => hb.bare.group.head hu, fun f => hb.last, hb.bare⟩

theorem app {f a : Skeleton} (hf : f.Readable) (ha : a.Readable) : (Skeleton.app f a).Readable := by
  have hwhole : Reads .expr (f.print true false ++ a.print false true) (.app f a) :=
    hf.function _ _ (ha.last f)
  refine ⟨hwhole.group, fun us u hu => ?_, fun g => ?_, hwhole⟩
  · show Reads .expr (f.print true false ++ a.print true true ++ us) u
    rw [List.append_assoc]
    exact hf.function _ _ (ha.atom.arg hu)
  · have harg := hwhole.group.arg (.done (.app g (.app f a)))
    rwa [List.append_nil] at harg

end Skeleton.Readable

namespace Expr

theorem Legible.readable {e : Expr} (he : e.Legible) : e.skeleton.Readable := by
  induction e with
  | var r => exact .of_leaf (fun _ _ => rfl) (.name r.name)
  | lam b A e ihA ihe => exact .bind .lam b.name (ihA he.2.1) (ihe he.2.2)
  | pi b A B ihA ihB => exact .bind .pi b.name (ihA he.2.1) (ihB he.2.2)
  | app f a ihf iha => exact .app (ihf he.1) (iha he.2)
  | star => exact .of_leaf (fun _ _ => rfl) .star
  | box => exact .of_leaf (fun _ _ => rfl) .box
  | unknown => exact he.elim

/-- **The text of an expression is written for its skeleton.** -/
theorem readsAs_render {e : Expr} (he : e.Legible) :
    ∃ text, e.render = some text ∧ ReadsAs text e.skeleton := by
  obtain ⟨text, htext, hlex⟩ := lexemes_fmt he false false
  refine ⟨text, htext, ?_⟩
  rw [ReadsAs, hlex]
  exact he.readable.expr

/-- **Rendering is unambiguous.**  Legible expressions that have one text have one skeleton: nodes
    of the same kinds, with the same names at binders and occurrences. -/
theorem render_unambiguous {e e' : Expr} (he : e.Legible) (he' : e'.Legible)
    (h : e.render = e'.render) : e.skeleton = e'.skeleton := by
  obtain ⟨text, htext, hread⟩ := readsAs_render he
  obtain ⟨text', htext', hread'⟩ := readsAs_render he'
  rw [h, htext'] at htext
  cases htext
  exact hread.unique hread'

/-- A Π that binds nothing, with the anonymous binder and over an index, has the text of one that
    is named `_` and stands over a free variable. -/
theorem render_unambiguous_arrow :
    let e : Expr := .app (.var (.free "f")) (.pi .anonymous .star (.var (.bound ⟨3, "a"⟩)))
    let e' : Expr := .app (.var (.bound ⟨0, "f"⟩)) (.pi (.named "_") .star (.var (.free "a")))
    e ≠ e' ∧ e.Legible ∧ e'.Legible ∧ e.render = some "f Π_ : * . a"
      ∧ e'.render = some "f Π_ : * . a" ∧ e.skeleton = e'.skeleton := by
  intro e e'
  have he : e.Legible := by decide
  have he' : e'.Legible := by decide
  have hr : e.render = some "f Π_ : * . a" := by decide
  have hr' : e'.render = some "f Π_ : * . a" := by decide
  exact ⟨by decide, he, he', hr, hr', render_unambiguous he he' (hr.trans hr'.symm)⟩

end Expr

/-! ## 3. Parentheses -/

namespace Skeleton

/-- The number of parentheses that are opened in the text at a place. -/
def openings (left arg : Bool) (t : Skeleton) : Nat := (t.print left arg).count .opening

theorem count_enclose (b : Bool) (us : List Lexeme) :
    (enclose b us).count .opening = us.count .opening + b.toNat := by
  cases b with
  | false => rfl
  | true =>
    show (Lexeme.opening :: (us ++ [.closing])).count .opening = us.count .opening + 1
    rw [List.count_cons_self, List.count_append]
    rfl

theorem count_binder (q : Quantifier) (x : String) (us vs : List Lexeme) :
    (Lexeme.mark q :: .name x :: .colon :: (us ++ .dot :: vs)).count .opening
      = us.count .opening + vs.count .opening := by
  simp

theorem openings_bind (left arg : Bool) (q : Quantifier) (x : String) (A e : Skeleton) :
    (bind q x A e).openings left arg
      = A.openings false false + e.openings false false + left.toNat := by
  rw [openings, print, count_enclose, count_binder]
  rfl

theorem openings_app (left arg : Bool) (f a : Skeleton) :
    (app f a).openings left arg
      = f.openings true false + a.openings (left && !arg) true + arg.toNat := by
  rw [openings, print, count_enclose, List.count_append]
  rfl

/-- What follows an argument costs it one pair of parentheses at most. -/
theorem openings_arg (t : Skeleton) :
    t.openings false true ≤ t.openings true true ∧
      t.openings true true ≤ t.openings false true + 1 := by
  cases t with
  | bind q x A e => simp [openings_bind]
  | app f a => simp [openings_app]
  | _ => exact ⟨Nat.le_refl 0, Nat.zero_le 1⟩

/-- The places in order of the parentheses that they ask for; from the first to the last it is one
    pair at most. -/
theorem openings_places (t : Skeleton) :
    t.openings false false ≤ t.openings false true ∧
      t.openings false false ≤ t.openings true false ∧
      t.openings true false ≤ t.openings true true ∧
      t.openings true true ≤ t.openings false false + 1 := by
  cases t with
  | bind q x A e => simp [openings_bind]
  | app f a =>
    have ha := a.openings_arg
    simp only [openings_app, Bool.and_true, Bool.and_false, Bool.not_true, Bool.not_false,
      Bool.toNat_true, Bool.toNat_false]
    omega
  | _ => exact ⟨Nat.le_refl 0, Nat.le_refl 0, Nat.le_refl 0, Nat.zero_le 1⟩

end Skeleton

/-- The parentheses that were opened before the phrase, in the function of its arguments. -/
def Phrase.before : Phrase → Nat
  | args f => f.openings true false
  | _ => 0

/-- The parentheses that are opened up to the end of a phrase that is printed. -/
def Phrase.least : Phrase → Skeleton → Nat
  | atom, t => t.openings true true
  | binder, t => t.openings false true
  | expr, t => t.openings false false
  | args _, t => t.openings false false

/-- **No phrase has fewer parentheses than the printed one.** -/
theorem Reads.least_le {p : Phrase} {us : List Lexeme} {t : Skeleton} (h : Reads p us t) :
    p.least t ≤ p.before + us.count .opening := by
  induction h with
  | name x => exact Nat.zero_le _
  | star => exact Nat.zero_le _
  | box => exact Nat.zero_le _
  | @group us t h ih =>
    -- a group costs one pair, and no place asks for more than that
    have hcount : (Lexeme.opening :: (us ++ [.closing])).count .opening = us.count .opening + 1 :=
      Skeleton.count_enclose true us
    have ht := t.openings_places
    simp only [Phrase.least, Phrase.before] at ih ⊢
    omega
  | @binder q x us vs A e hA he ihA ihe =>
    simp only [Phrase.least, Phrase.before] at ihA ihe ⊢
    rw [Skeleton.openings_bind, Skeleton.count_binder, Bool.toNat_false]
    omega
  | @bare us t h ih => exact Nat.le_trans t.openings_places.1 ih
  | @head us vs f t hf h ihf ih =>
    have hplaces := f.openings_places
    simp only [Phrase.least, Phrase.before] at ihf ih ⊢
    rw [List.count_append]
    omega
  | done f => exact f.openings_places.2.1
  | @arg us vs f a t ha h iha ih =>
    have happ : (Skeleton.app f a).openings true false
        = f.openings true false + a.openings true true := Skeleton.openings_app true false f a
    simp only [Phrase.least, Phrase.before] at iha ih ⊢
    rw [List.count_append]
    omega
  | @last us f b h ih =>
    have happ : (Skeleton.app f b).openings false false
        = f.openings true false + b.openings false true := Skeleton.openings_app false false f b
    simp only [Phrase.least, Phrase.before] at ih ⊢
    omega

namespace Expr

/-- No text written for the same skeleton opens fewer parentheses. -/
theorem count_render_le {e : Expr} (he : e.Legible) {text s : String} (htext : e.render = some text)
    (h : ReadsAs s e.skeleton) : text.toList.count '(' ≤ s.toList.count '(' := by
  have hopenings : e.skeleton.openings false false = text.toList.count '(' := by
    obtain ⟨text', htext', hlex⟩ := lexemes_fmt he false false
    cases htext.symm.trans htext'
    rw [Skeleton.openings, ← hlex, count_lexemes]
  have hle : e.skeleton.openings false false ≤ 0 + (lexemes s).count .opening := h.least_le
  rwa [hopenings, Nat.zero_add, count_lexemes] at hle

/-- **Rendering uses no redundant parentheses.**  The text of an expression is written for its
    skeleton; without some opening parenthesis and some later closing one, whether or not they
    belong together, it is not. -/
theorem render_minimal {e : Expr} (he : e.Legible) :
    ∃ text, e.render = some text ∧ ReadsAs text e.skeleton ∧
      ∀ before inside after : List Char,
        text.toList = before ++ '(' :: (inside ++ ')' :: after) →
        ¬ ReadsAs (String.ofList (before ++ (inside ++ after))) e.skeleton := by
  obtain ⟨text, htext, hread⟩ := readsAs_render he
  refine ⟨text, htext, hread, fun before inside after hchars hshort => ?_⟩
  have hle := count_render_le he htext hshort
  rw [hchars, String.toList_ofList] at hle
  have hclosing : (')' :: after).count '(' = after.count '(' := List.count_cons_of_ne (by decide)
  simp only [List.count_append, List.count_cons_self, hclosing] at hle
  omega

/-- In `f (λx : * . x) (g a)` neither pair can be left out: without the first, `(g a)` goes to the
    body of the λ; without the second, `g` and `a` are two arguments. -/
theorem render_minimal_groups :
    let identity : Expr := .lam (.named "x") .star (.var (.bound ⟨0, "x"⟩))
    let applied : Expr := .app (.var (.free "g")) (.var (.free "a"))
    let e : Expr := .app (.app (.var (.free "f")) identity) applied
    e.Legible ∧ e.render = some "f (λx : * . x) (g a)" ∧ ReadsAs "f (λx : * . x) (g a)" e.skeleton
      ∧ ¬ ReadsAs "f λx : * . x (g a)" e.skeleton ∧ ¬ ReadsAs "f (λx : * . x) g a" e.skeleton := by
  intro identity applied e
  have he : e.Legible := by decide
  have hr : e.render = some "f (λx : * . x) (g a)" := by decide
  obtain ⟨text, htext, hread, hdelete⟩ := render_minimal he
  cases hr.symm.trans htext
  have hfirst := hdelete "f ".toList "λx : * . x".toList " (g a)".toList (by decide)
  have hsecond := hdelete "f (λx : * . x) ".toList "g a".toList [] (by decide)
  exact ⟨he, hr, hread, hfirst, hsecond⟩

end Expr

end Constructions
