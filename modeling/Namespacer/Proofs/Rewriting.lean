import Namespacer.Proofs.Matching
import Namespacer.Text.Template

/-!
# What replacing leaves and what it puts in

`Pattern.replaceFrom` walks a text and counts the characters that a match still
covers. Here its result is read as a relation: every character is kept where
no match begins, and every match is replaced as a whole.

* `Rewritten.replaceFrom`: the walk computes the relation.
* `Rewritten.pass`: where nothing is found, the text is passed over.
* `Rewritten.kept_or_replaced`: a beginning of the result was kept as it is, or
  an image begins inside it.
* `Pattern.IsGreedy`: what the matches that count take of the end of a text.
* `Template.parse_of_plain`, `Template.expand_plain`: a template without a
  backslash stands for itself.
-/

namespace Namespacer

/-- Whether one text becomes another behind a character if the parts at which
`Found` holds are replaced by their image. -/
inductive Rewritten (Found : Option Char → Text → Text → Prop) (image : Text → Text) :
    (before : Option Char) → (text output : Text) → Prop
  | finished {before : Option Char} : Rewritten Found image before [] []
  | kept {before : Option Char} {c : Char} {text output : Text}
      (hnone : ∀ covered after, c :: text = covered ++ after → ¬ Found before covered after)
      (hrest : Rewritten Found image (some c) text output) :
      Rewritten Found image before (c :: text) (c :: output)
  | replaced {before : Option Char} {covered after output : Text}
      (hfound : Found before covered after)
      (hrest : Rewritten Found image (behind before covered) after output) :
      Rewritten Found image before (covered ++ after) (image covered ++ output)

namespace Rewritten

variable {Found : Option Char → Text → Text → Prop} {image : Text → Text} {before : Option Char}

/-- The characters that a match covers are passed over. -/
theorem replaceFrom_append (p : Pattern) (image : Text → Text) (before : Option Char)
    (u after : Text) :
    p.replaceFrom image before u.length (u ++ after) =
      p.replaceFrom image (behind before u) 0 after := by
  induction u generalizing before with
  | nil => rfl
  | cons c u ih =>
    rw [List.length_cons, List.cons_append, Pattern.replaceFrom]
    exact ih (some c)

/-- The walk over a text, where what the pattern finds at a place is known. -/
theorem replaceFrom_of_end? {p : Pattern} {image' : Text → Text}
    (hnone : ∀ before text, p.end? ⟨before, text⟩ = none →
      ∀ covered after, text = covered ++ after → ¬ Found before covered after)
    (hsome : ∀ before text found, p.end? ⟨before, text⟩ = some found →
      ∃ covered, text = covered ++ found.rest ∧ Found before covered found.rest)
    (himage : ∀ before covered after, Found before covered after → image' covered = image covered)
    (hne : ∀ before covered after, Found before covered after → covered ≠ [])
    (before : Option Char) (text : Text) :
    Rewritten Found image before text (p.replaceFrom image' before 0 text) := by
  induction hlength : text.length using Nat.strongRecOn generalizing before text with
  | _ length ih =>
    cases text with
    | nil =>
      rw [Pattern.replaceFrom]
      split
      · rename_i found hend
        obtain ⟨covered, htext, hfound⟩ := hsome _ _ _ hend
        obtain ⟨rfl, -⟩ := List.append_eq_nil_iff.mp htext.symm
        exact absurd rfl (hne _ _ _ hfound)
      · exact finished
    | cons c text =>
      rw [Pattern.replaceFrom]
      split
      · rename_i hend
        refine kept (hnone _ _ hend) (ih text.length ?_ (some c) text rfl)
        rw [← hlength, List.length_cons]
        omega
      · rename_i found hend
        obtain ⟨covered, htext, hfound⟩ := hsome _ _ _ hend
        cases covered with
        | nil => exact absurd rfl (hne _ _ _ hfound)
        | cons d covered =>
          rw [List.cons_append, List.cons.injEq] at htext
          obtain ⟨rfl, rfl⟩ := htext
          have hcount : (covered ++ found.rest).length + 1 - found.rest.length =
              covered.length + 1 := by
            rw [List.length_append]
            omega
          have htake : (c :: (covered ++ found.rest)).take (covered.length + 1) =
              c :: covered := by simp
          rw [hcount]
          dsimp only
          rw [htake, himage _ _ _ hfound, replaceFrom_append]
          refine replaced hfound (ih found.rest.length ?_ _ _ rfl)
          rw [← hlength, List.length_cons, List.length_append]
          omega

theorem replaceFrom {p : Pattern} {image' : Text → Text}
    (hcovers : ∀ before covered after, p.Covers before covered after ↔ Found before covered after)
    (himage : ∀ before covered after, Found before covered after → image' covered = image covered)
    (hne : ∀ before covered after, Found before covered after → covered ≠ [])
    (before : Option Char) (text : Text) :
    Rewritten Found image before text (p.replaceFrom image' before 0 text) := by
  refine replaceFrom_of_end? (fun before text hend => ?_) (fun before text found hend => ?_) himage
    hne before text
  · intro covered after htext hfound
    exact Pattern.end?_eq_none_iff.mp hend covered after htext ((hcovers _ _ _).mpr hfound)
  · obtain ⟨covered, htext, hcovered⟩ := Pattern.end?_eq_some hend
    exact ⟨covered, htext, (hcovers _ _ _).mp hcovered⟩

/-- Where nothing is found, the text is passed over. -/
theorem pass {u rest output : Text} (h : Rewritten Found image before (u ++ rest) output)
    (hnone : ∀ s v covered after, u = s ++ v → v ≠ [] → v ++ rest = covered ++ after →
      ¬ Found (behind before s) covered after) :
    ∃ output', output = u ++ output' ∧ Rewritten Found image (behind before u) rest output' := by
  induction u generalizing before output with
  | nil => exact ⟨output, rfl, h⟩
  | cons c u ih =>
    generalize htext : c :: u ++ rest = text at h
    cases h with
    | finished => cases htext
    | kept _ hrest =>
      obtain ⟨rfl, rfl⟩ := List.cons.inj htext
      obtain ⟨output', rfl, h⟩ := ih hrest fun s v covered after hu hv =>
        hnone (c :: s) v covered after (congrArg (c :: ·) hu) hv
      exact ⟨output', rfl, h⟩
    | replaced hfound =>
      exact absurd hfound (hnone [] (c :: u) _ _ rfl (by simp) htext)

/-- A beginning of the result was kept, or an image begins inside it. -/
theorem kept_or_replaced {text output u rest : Text} (h : Rewritten Found image before text output)
    (houtput : output = u ++ rest) :
    (∃ text', text = u ++ text' ∧ Rewritten Found image (behind before u) text' rest) ∨
      ∃ s v covered after output', u = s ++ v ∧ v ≠ [] ∧ text = s ++ (covered ++ after) ∧
        v ++ rest = image covered ++ output' ∧ Found (behind before s) covered after := by
  induction u generalizing before text output with
  | nil =>
    rw [List.nil_append] at houtput
    exact .inl ⟨text, rfl, houtput ▸ h⟩
  | cons c u ih =>
    cases h with
    | finished => cases houtput
    | kept hnone hrest =>
      rw [List.cons_append, List.cons.injEq] at houtput
      obtain ⟨rfl, houtput⟩ := houtput
      rcases ih hrest houtput with ⟨text', rfl, h⟩ | ⟨s, v, covered, after, output', rfl, h⟩
      · exact .inl ⟨text', rfl, h⟩
      · obtain ⟨hv, rfl, himage, hfound⟩ := h
        exact .inr ⟨_ :: s, v, covered, after, output', rfl, hv, rfl, himage, hfound⟩
    | replaced hfound hrest =>
      exact .inr ⟨[], c :: u, _, _, _, rfl, by simp, rfl, houtput.symm, hfound⟩

end Rewritten

/-! ## Greedy patterns -/

namespace Pattern

/-- Whether the matches that count take as many characters of a class as there are. -/
def IsGreedy (p : Pattern) (accepts : Char → Bool) : Prop :=
  ∀ place found, p.end? place = some found → found.rest.head?.any accepts = false

theorem isGreedy_many (accepts : Char → Bool) : (many accepts).IsGreedy accepts := by
  rintro ⟨before, text⟩ found hfound
  -- The longest run comes first, and it ends where the class does.
  have hfirst (before : Option Char) (text : Text) : ∃ place,
      (Place.runs accepts before text).head? = some place ∧
        place.rest.head?.any accepts = false := by
    induction text generalizing before with
    | nil => exact ⟨_, rfl, rfl⟩
    | cons c text ih =>
      rw [Place.runs]
      split
      · obtain ⟨place, hplace, hrest⟩ := ih (some c)
        exact ⟨place, by rw [List.head?_append, hplace, Option.some_or], hrest⟩
      · rename_i hc
        exact ⟨_, rfl, by simpa using hc⟩
  obtain ⟨place, hplace, hrest⟩ := hfirst before text
  rw [end?, ends, hplace] at hfound
  exact Option.some.inj hfound ▸ hrest

theorem IsGreedy.seq {accepts : Char → Bool} (first : Pattern) {second : Pattern}
    (h : second.IsGreedy accepts) : (seq first second).IsGreedy accepts := by
  intro place found hfound
  rw [end?, ends, List.head?_flatMap] at hfound
  obtain ⟨middle, -, hend⟩ := List.exists_of_findSome?_eq_some hfound
  exact h middle found hend

end Pattern

/-! ## Templates -/

namespace Template

theorem parseFrom_of_plain {groups : Nat} {template : Text} (h : '\\' ∉ template) :
    parseFrom groups 0 template = .ok (template.map fun c => .text [c]) := by
  induction template with
  | nil => rfl
  | cons c template ih =>
    rw [List.mem_cons, not_or] at h
    rw [parseFrom, if_neg (Ne.symm h.1), ih h.2]
    rfl

/-- A template that begins with the first part of the match. -/
theorem parse_firstPart {template : Text} (h : '\\' ∉ template) :
    parse 1 ('\\' :: '1' :: ' ' :: template) =
      .ok (.group 1 :: .text [' '] :: template.map fun c => .text [c]) := by
  have hplain : '\\' ∉ ' ' :: template := by simpa using h
  have hescape : readEscape 1 ('1' :: ' ' :: template) = .ok (.group 1, 1) := by
    cases template <;> rfl
  rw [parse, parseFrom, if_pos rfl, hescape]
  change (do
    let pieces ← parseFrom 1 0 (' ' :: template)
    pure (TemplatePiece.group 1 :: pieces) : Except TemplateFault (List TemplatePiece)) = _
  rw [parseFrom_of_plain hplain]
  rfl

theorem expand_plain (template : Text) (parts : Nat → Text) :
    expand (template.map fun c => .text [c]) parts = template := by
  induction template with
  | nil => rfl
  | cons c template ih =>
    rw [List.map_cons, expand, List.flatMap_cons]
    exact congrArg (c :: ·) ih

end Template

end Namespacer
