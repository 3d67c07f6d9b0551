import FeatureTree.Proofs.Tree.Picture
import FeatureTree.Tree.Printer

/-!
# OneLine — what can be seen in a term on one line

On one line nothing is quoted: kinds, values and children of a branch are separated by blanks, and a leaf
is its text alone.  Still the line shows the term, if texts are words, so that neither a blank nor a
bracket is in them, and if the kind of a branch decides whether it has a value (`Heads`).

Each term is cut off from what follows it (`Term.Legible.cancel`): a word ends in front of a blank or a closing
bracket, and a branch with the bracket that closes it.
-/

namespace FeatureTree

/-! ## Words -/

/-- The character separates nothing on a line. -/
def isWordChar (c : Char) : Bool := c != ' ' && c != '(' && c != ')'

/-- One or more characters without blanks and brackets. -/
def IsWord (text : String) : Prop := text.toList ≠ [] ∧ ∀ c ∈ text.toList, isWordChar c = true

instance (text : String) : Decidable (IsWord text) :=
  decidable_of_iff (text.toList ≠ [] ∧ text.toList.all isWordChar = true)
    (and_congr_right fun _ => List.all_eq_true)

/-- Nothing, or a text that continues no word. -/
def EndsWord (rest : List Char) : Prop := ∀ c ∈ rest.head?, isWordChar c = false

variable {text text' : String} {r r' : List Char}

theorem endsWord_nil : EndsWord [] := fun _ hc => nomatch hc

theorem endsWord_cons {c : Char} (hc : isWordChar c = false) (rest : List Char) :
    EndsWord (c :: rest) := by
  intro d hd
  obtain rfl := Option.some.inj hd
  exact hc

/-- Where a word ends, and what it is, can be seen. -/
theorem IsWord.cancel (h : IsWord text) (h' : IsWord text') (hr : EndsWord r) (hr' : EndsWord r')
    (heq : text.toList ++ r = text'.toList ++ r') : text = text' ∧ r = r' := by
  have htake : ∀ {s : String} {rest : List Char}, IsWord s → EndsWord rest →
      (s.toList ++ rest).takeWhile isWordChar = s.toList := by
    intro s rest hs hrest
    rw [List.takeWhile_append_of_pos hs.2]
    cases rest with
    | nil => exact List.append_nil _
    | cons c tail =>
        have hc : isWordChar c = false := hrest c rfl
        simp [hc]
  have hword : text.toList = text'.toList := by rw [← htake h hr, heq, htake h' hr']
  refine ⟨String.toList_inj.1 hword, ?_⟩
  rw [hword] at heq
  exact List.append_cancel_left heq

/-- A word is not what starts with a bracket. -/
theorem IsWord.ne_bracket (h : IsWord text) : text.toList ++ r ≠ '(' :: r' := by
  intro heq
  cases hchars : text.toList with
  | nil => exact h.1 hchars
  | cons c tail =>
      rw [hchars] at heq
      have hc := h.2 c (hchars ▸ List.mem_cons_self)
      rw [(List.cons.inj heq).1] at hc
      cases hc

namespace Term

variable {K V : Type} [Written K] [Written V]

/-! ## Lines -/

/-- The terms, each behind a blank. -/
def spaced (ts : List (Term (Label K V))) : List Char :=
  ts.flatMap fun T => ' ' :: T.render.toList

theorem spaced_cons (T : Term (Label K V)) (ts : List (Term (Label K V))) :
    spaced (T :: ts) = ' ' :: (T.render.toList ++ spaced ts) := rfl

theorem toList_renderList (text : String) (ts : List (Term (Label K V))) :
    (renderList text ts).toList = text.toList ++ spaced ts := by
  induction ts generalizing text with
  | nil => exact (List.append_nil _).symm
  | cons T ts ih => simp [renderList, ih, spaced_cons]

theorem toList_render_branch (a : Label K V) (ts : List (Term (Label K V))) :
    (render (.branch a ts)).toList = '(' :: ((headText a).toList ++ (spaced ts ++ [')'])) := by
  simp [render, toList_renderList]

theorem endsWord_spaced (ts : List (Term (Label K V))) (rest : List Char) :
    EndsWord (spaced ts ++ ')' :: rest) := by
  cases ts with
  | nil => exact endsWord_cons rfl _
  | cons T ts => exact endsWord_cons rfl _

/-! ## Heads -/

/-- Kinds are different words, and what holds of all labels of branches is enough to tell a head from
the line. -/
structure Heads (Head : Label K V → Prop) : Prop where
  kind (k : K) : IsWord (Written.text k)
  kind_injective : Function.Injective (Written.text : K → String)
  value {a : Label K V} {v : V} : Head a → a.value = some v → IsWord (Written.text v)
  /-- The kind decides whether there is a value. -/
  isSome_eq {a b : Label K V} : Head a → Head b → a.kind = b.kind →
    a.value.isSome = b.value.isSome
  value_inj {a b : Label K V} {v w : V} : Head a → Head b → a.kind = b.kind → a.value = some v →
    b.value = some w → Written.text v = Written.text w → v = w

variable {Head : Label K V → Prop} {a b : Label K V}

/-- The text of a head is its kind, and its value behind a blank. -/
theorem toList_headText (a : Label K V) : (headText a).toList = (Written.text a.kind).toList ++
    a.value.toList.flatMap fun v => ' ' :: (Written.text v).toList := by
  unfold headText
  cases a.value <;> simp

/-- Where a head ends, and what it is, can be seen. -/
theorem Heads.cancel (h : Heads Head) (ha : Head a) (hb : Head b) (hr : EndsWord r)
    (hr' : EndsWord r') (heq : (headText a).toList ++ r = (headText b).toList ++ r') :
    a.kind = b.kind ∧ a.value = b.value ∧ r = r' := by
  have hends : ∀ (v : Option V) {rest : List Char}, EndsWord rest →
      EndsWord ((v.toList.flatMap fun v => ' ' :: (Written.text v).toList) ++ rest) := by
    intro v rest hrest
    cases v with
    | none => exact hrest
    | some v => exact endsWord_cons rfl _
  rw [toList_headText, toList_headText, List.append_assoc, List.append_assoc] at heq
  rcases (h.kind a.kind).cancel (h.kind b.kind) (hends _ hr) (hends _ hr') heq with ⟨htext, hrest⟩
  have hkind := h.kind_injective htext
  refine ⟨hkind, ?_⟩
  -- Both have a value, or neither has one.
  have hsome := h.isSome_eq ha hb hkind
  cases hv : a.value with
  | none =>
      rw [hv, Option.isSome_none] at hsome
      have hw : b.value = none := Option.not_isSome_iff_eq_none.1 (by simp [← hsome])
      rw [hv, hw] at hrest
      exact ⟨hw.symm, hrest⟩
  | some v =>
      rw [hv, Option.isSome_some] at hsome
      rcases Option.isSome_iff_exists.1 hsome.symm with ⟨w, hw⟩
      rw [hv, hw] at hrest
      have hchars : (Written.text v).toList ++ r = (Written.text w).toList ++ r' := by
        simpa using hrest
      rcases (h.value ha hv).cancel (h.value hb hw) hr hr' hchars with ⟨hvalue, hrest'⟩
      rw [hw, h.value_inj ha hb hkind hv hw hvalue]
      exact ⟨rfl, hrest'⟩

/-! ## Terms -/

/-- All leaves are words, and all branches have the given heads. -/
inductive Legible (Head : Label K V → Prop) : Term (Label K V) → Prop where
  | leaf {a : Label K V} (word : IsWord (leafText a)) : Legible Head (.leaf a)
  | branch {a : Label K V} {ts : List (Term (Label K V))} (head : Head a)
      (children : ∀ T ∈ ts, Legible Head T) : Legible Head (.branch a ts)

/-- Terms of one shape, with the same kinds and values at branches and the same texts at leaves. -/
inductive Alike : Term (Label K V) → Term (Label K V) → Prop where
  | leaf {a b : Label K V} (text : leafText a = leafText b) : Alike (.leaf a) (.leaf b)
  | branch {a b : Label K V} {ts ss : List (Term (Label K V))} (kind : a.kind = b.kind)
      (value : a.value = b.value) (children : List.Forall₂ Alike ts ss) :
      Alike (.branch a ts) (.branch b ss)

/-- The term is seen in its text, whatever follows. -/
def CutsOff (Head : Label K V → Prop) (T : Term (Label K V)) : Prop :=
  ∀ S r r', Legible Head S → EndsWord r → EndsWord r' →
    T.render.toList ++ r = S.render.toList ++ r' → Alike T S ∧ r = r'

/-- The children of a branch are seen in their texts, up to the bracket that closes it. -/
theorem forall₂_of_spaced {ts ss : List (Term (Label K V))} (hts : ∀ T ∈ ts, CutsOff Head T)
    (hss : ∀ S ∈ ss, Legible Head S) (heq : spaced ts ++ ')' :: r = spaced ss ++ ')' :: r') :
    List.Forall₂ Alike ts ss ∧ r = r' := by
  induction ts generalizing ss with
  | nil =>
      cases ss with
      | nil => exact ⟨.nil, (List.cons.inj heq).2⟩
      | cons S ss => exact absurd (List.cons.inj heq).1 (by decide)
  | cons T ts ih =>
      cases ss with
      | nil => exact absurd (List.cons.inj heq).1 (by decide)
      | cons S ss =>
          rw [spaced_cons, spaced_cons, List.cons_append, List.cons_append, List.append_assoc,
            List.append_assoc] at heq
          rcases hts T List.mem_cons_self S _ _ (hss S List.mem_cons_self) (endsWord_spaced ts r)
            (endsWord_spaced ss r') (List.cons.inj heq).2 with ⟨hfirst, hrest⟩
          rcases ih (fun X hX => hts X (List.mem_cons_of_mem _ hX))
            (fun X hX => hss X (List.mem_cons_of_mem _ hX)) hrest with ⟨hall, hr⟩
          exact ⟨.cons hfirst hall, hr⟩

/-- Where a legible term ends, and what it is, can be seen. -/
theorem Legible.cancel (hHead : Heads Head) {T : Term (Label K V)} (h : Legible Head T) :
    CutsOff Head T := by
  induction T using Term.induction with
  | leaf a =>
      cases h with
      | leaf word =>
          intro S r r' hS hr hr' heq
          cases hS with
          | leaf word' =>
              rcases word.cancel word' hr hr' heq with ⟨htext, hrest⟩
              exact ⟨.leaf htext, hrest⟩
          | branch head children =>
              rw [toList_render_branch] at heq
              exact absurd heq word.ne_bracket
  | branch a ts ih =>
      cases h with
      | branch head children =>
          intro S r r' hS hr hr' heq
          cases hS with
          | leaf word' =>
              rw [toList_render_branch] at heq
              exact absurd heq.symm word'.ne_bracket
          | @branch b ss head' children' =>
              have hline : (headText a).toList ++ (spaced ts ++ ')' :: r) =
                  (headText b).toList ++ (spaced ss ++ ')' :: r') := by
                simpa [toList_render_branch] using heq
              rcases hHead.cancel head head' (endsWord_spaced ts r) (endsWord_spaced ss r')
                hline with ⟨hkind, hvalue, hrest⟩
              rcases forall₂_of_spaced (fun T hT => ih T hT (children T hT)) children' hrest with
                ⟨hall, hr⟩
              exact ⟨.branch hkind hvalue hall, hr⟩

/-- Legible terms on the same line are alike. -/
theorem Legible.alike (hHead : Heads Head) {T S : Term (Label K V)} (h : Legible Head T)
    (h' : Legible Head S) (heq : T.render = S.render) : Alike T S := by
  refine (h.cancel hHead S [] [] h' endsWord_nil endsWord_nil ?_).1
  rw [heq]

end Term

namespace Tree

variable {K V : Type} [Written K] [Written V]

/-- Two trees that show terms which are alike. -/
def Alike (t t' : Tree K V) : Prop :=
  ∃ T T', t.term? root = some T ∧ t'.term? root = some T' ∧ T.Alike T'

/-- The tree shows a legible term from its root. -/
def Legible (Head : Label K V → Prop) (t : Tree K V) : Prop :=
  ∃ T, t.term? root = some T ∧ T.Legible Head

/-- Legible trees on the same line are alike. -/
theorem Legible.alike {Head : Label K V → Prop} {t t' : Tree K V} (hHead : Term.Heads Head)
    (h : t.Legible Head) (h' : t'.Legible Head) (heq : t.render = t'.render) : t.Alike t' := by
  rcases h with ⟨T, hT, hlegible⟩
  rcases h' with ⟨T', hT', hlegible'⟩
  rw [Tree.render, Tree.render, hT, hT'] at heq
  exact ⟨T, T', hT, hT', hlegible.alike hHead hlegible' heq⟩

end Tree

end FeatureTree
