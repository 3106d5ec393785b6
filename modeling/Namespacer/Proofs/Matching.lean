import Namespacer.Text.Pattern
import Mathlib.Data.List.Forall2

/-!
# What patterns cover

`Pattern.ends` computes the places where a match can end. Here a pattern is
read as a relation instead: `Pattern.Covers p before covered after` says that
`p` matches the text `covered` where it stands between the character `before`
and the text `after`.

* `Pattern.mem_ends`: the two readings agree.
* `Pattern.occursIn_iff`: a pattern occurs in a text exactly if some part of the
  text is covered.
* `Pattern.first?_eq_some`: the first match cuts its text in three.
* `Pattern.Covers.congr_after`, `Pattern.Covers.congr_before`, `Pattern.Covers.all`: a
  match sees one character of what comes after it, of what comes before it whether
  that ends a word or a line, and covers only characters that it has a class for.
-/

namespace Namespacer

/-- The character before a place that lies behind a covered text. -/
def behind : (before : Option Char) → (covered : Text) → Option Char
  | before, [] => before
  | _, c :: covered => behind (some c) covered

@[simp] theorem behind_nil (before : Option Char) : behind before [] = before := rfl

@[simp] theorem behind_cons (before : Option Char) (c : Char) (covered : Text) :
    behind before (c :: covered) = behind (some c) covered := rfl

theorem behind_append (before : Option Char) (u v : Text) :
    behind before (u ++ v) = behind (behind before u) v := by
  induction u generalizing before with
  | nil => rfl
  | cons c u ih => exact ih (some c)

namespace Pattern

/-- Whether a line starts behind a character. -/
def startsLine (before : Option Char) : Prop := before = none ∨ before = some '\n'

/-- Whether a pattern matches `covered` between a character and a text. -/
def Covers : Pattern → (before : Option Char) → (covered after : Text) → Prop
  | empty, _, covered, _ => covered = []
  | one accepts, _, covered, _ => ∃ c, covered = [c] ∧ accepts c = true
  | many accepts, _, covered, _ => ∀ c ∈ covered, accepts c = true
  | seq first second, before, covered, after =>
    ∃ u v, covered = u ++ v ∧ Covers first before u (v ++ after) ∧
      Covers second (behind before u) v after
  | alt first second, before, covered, after =>
    Covers first before covered after ∨ Covers second before covered after
  | wordEdge, before, covered, after =>
    covered = [] ∧ Place.atWordEdge ⟨before, after⟩ = true
  | start, before, covered, _ => covered = [] ∧ before = none
  | lineStart, before, covered, _ => covered = [] ∧ startsLine before
  | finish, _, covered, after => covered = [] ∧ (after = [] ∨ after = ['\n'])
  | notAfter rejects, before, covered, _ => covered = [] ∧ before.any rejects = false
  | notBefore rejects, _, covered, after => covered = [] ∧ after.head?.any rejects = false

/-! ## Both readings agree -/

/-- A pattern that takes no text ends where it begins, under its condition. -/
theorem mem_stayIf {condition : Bool} {before : Option Char} {text : Text} {found : Place}
    {P : Text → Prop} (hP : condition = true ↔ P text) :
    found ∈ (⟨before, text⟩ : Place).stayIf condition ↔
      ∃ covered, text = covered ++ found.rest ∧ found.before = behind before covered ∧
        covered = [] ∧ P found.rest := by
  have hmem : found ∈ (⟨before, text⟩ : Place).stayIf condition ↔
      condition = true ∧ found = ⟨before, text⟩ := by
    unfold Place.stayIf
    split <;> simp_all
  rw [hmem, hP]
  constructor
  · rintro ⟨h, rfl⟩
    exact ⟨[], rfl, rfl, rfl, h⟩
  · rintro ⟨_, htext, hbefore, rfl, h⟩
    cases found
    simp_all

theorem mem_runs {accepts : Char → Bool} {before : Option Char} {text : Text} {found : Place} :
    found ∈ Place.runs accepts before text ↔
      ∃ covered, text = covered ++ found.rest ∧ found.before = behind before covered ∧
        ∀ c ∈ covered, accepts c = true := by
  induction text generalizing before with
  | nil =>
    obtain ⟨b, rest⟩ := found
    simp only [Place.runs, List.mem_singleton, Place.mk.injEq]
    constructor
    · rintro ⟨rfl, rfl⟩
      exact ⟨[], rfl, rfl, by simp⟩
    · rintro ⟨covered, htext, hbefore, -⟩
      obtain ⟨rfl, rfl⟩ := List.append_eq_nil_iff.mp htext.symm
      exact ⟨hbefore, rfl⟩
  | cons c text ih =>
    obtain ⟨b, rest⟩ := found
    -- the empty run stays where it is, any longer one goes on behind `c`
    have hstay : (∃ covered : Text, c :: text = covered ++ rest ∧ b = behind before covered ∧
        ∀ d ∈ covered, accepts d = true) ↔
        ((⟨b, rest⟩ : Place) = ⟨before, c :: text⟩ ∨ accepts c = true ∧
          ∃ covered, text = covered ++ rest ∧ b = behind (some c) covered ∧
            ∀ d ∈ covered, accepts d = true) := by
      constructor
      · rintro ⟨covered, htext, hbefore, hall⟩
        cases covered with
        | nil => exact .inl (by simp_all)
        | cons d covered =>
          simp only [List.cons_append, List.cons.injEq] at htext
          obtain ⟨rfl, htext⟩ := htext
          simp only [List.mem_cons, forall_eq_or_imp] at hall
          exact .inr ⟨hall.1, covered, htext, hbefore, hall.2⟩
      · rintro (h | ⟨hc, covered, htext, hbefore, hall⟩)
        · cases h
          exact ⟨[], rfl, rfl, by simp⟩
        · refine ⟨c :: covered, by simp [htext], hbefore, ?_⟩
          simpa only [List.mem_cons, forall_eq_or_imp] using ⟨hc, hall⟩
    rw [hstay]
    unfold Place.runs
    split
    · rename_i hc
      simp only [List.mem_append, ih, List.mem_singleton, hc, true_and]
      exact or_comm
    · rename_i hc
      simp only [List.mem_singleton, hc, Bool.false_eq_true, false_and, or_false]

/-- The places where a match can end are the ends of the covered texts. -/
theorem mem_ends {p : Pattern} {before : Option Char} {text : Text} {found : Place} :
    found ∈ p.ends ⟨before, text⟩ ↔
      ∃ covered, text = covered ++ found.rest ∧ found.before = behind before covered ∧
        p.Covers before covered found.rest := by
  induction p generalizing before text found with
  | empty =>
    simp only [ends, List.mem_singleton, Covers]
    constructor
    · rintro rfl
      exact ⟨[], rfl, rfl, rfl⟩
    · rintro ⟨_, htext, hbefore, rfl⟩
      cases found
      simp_all
  | one accepts =>
    simp only [ends, Covers]
    cases text with
    | nil =>
      simp only [List.not_mem_nil, false_iff]
      rintro ⟨_, htext, -, c, rfl, -⟩
      simp at htext
    | cons c rest =>
      simp only [List.mem_ite_nil_right, List.mem_singleton]
      constructor
      · rintro ⟨hc, rfl⟩
        exact ⟨[c], rfl, rfl, c, rfl, hc⟩
      · rintro ⟨_, htext, hbefore, d, rfl, hd⟩
        cases found
        simp_all
  | many accepts => exact mem_runs
  | seq first second ihFirst ihSecond =>
    simp only [ends, List.mem_flatMap]
    constructor
    · rintro ⟨⟨b, rest⟩, hfirst, hsecond⟩
      obtain ⟨u, rfl, rfl, hu⟩ := ihFirst.mp hfirst
      obtain ⟨v, rfl, hb, hv⟩ := ihSecond.mp hsecond
      exact ⟨u ++ v, by simp, by rw [hb, behind_append], u, v, rfl, hu, hv⟩
    · rintro ⟨_, htext, hbefore, u, v, rfl, hu, hv⟩
      refine ⟨⟨behind before u, v ++ found.rest⟩, ihFirst.mpr ⟨u, ?_, rfl, hu⟩,
        ihSecond.mpr ⟨v, rfl, ?_, hv⟩⟩
      · simpa using htext
      · rw [hbefore, behind_append]
  | alt first second ihFirst ihSecond =>
    simp only [ends, List.mem_append, ihFirst, ihSecond, Covers]
    constructor
    · rintro (⟨u, htext, hbefore, hu⟩ | ⟨u, htext, hbefore, hu⟩)
      · exact ⟨u, htext, hbefore, .inl hu⟩
      · exact ⟨u, htext, hbefore, .inr hu⟩
    · rintro ⟨u, htext, hbefore, hu | hu⟩
      · exact .inl ⟨u, htext, hbefore, hu⟩
      · exact .inr ⟨u, htext, hbefore, hu⟩
  | wordEdge => exact mem_stayIf (P := fun rest => Place.atWordEdge ⟨before, rest⟩ = true) Iff.rfl
  | start => exact mem_stayIf (P := fun _ => before = none) (by simp)
  | lineStart =>
    exact mem_stayIf (P := fun _ => startsLine before) (by simp [startsLine])
  | finish => exact mem_stayIf (P := fun rest => rest = [] ∨ rest = ['\n']) (by simp)
  | notAfter rejects =>
    exact mem_stayIf (P := fun _ => before.any rejects = false) (by simp)
  | notBefore rejects =>
    exact mem_stayIf (P := fun rest => rest.head?.any rejects = false) (by simp)

/-! ## Composed patterns -/

theorem covers_all_cons {p : Pattern} {ps : List Pattern} {before : Option Char}
    {covered after : Text} :
    (all (p :: ps)).Covers before covered after ↔
      ∃ u v, covered = u ++ v ∧ p.Covers before u (v ++ after) ∧
        (all ps).Covers (behind before u) v after := by
  cases ps with
  | nil =>
    simp only [all, Covers]
    constructor
    · intro h
      exact ⟨covered, [], by simp, h, rfl⟩
    · rintro ⟨u, _, rfl, hu, rfl⟩
      simpa using hu
  | cons q ps => rfl

theorem covers_oneOrMore {accepts : Char → Bool} {before : Option Char} {covered after : Text} :
    (oneOrMore accepts).Covers before covered after ↔
      covered ≠ [] ∧ ∀ c ∈ covered, accepts c = true := by
  constructor
  · rintro ⟨_, v, rfl, ⟨c, rfl, hc⟩, hv⟩
    refine ⟨by simp, ?_⟩
    simpa using ⟨hc, hv⟩
  · rintro ⟨hne, hall⟩
    cases covered with
    | nil => exact absurd rfl hne
    | cons c covered =>
      simp only [List.mem_cons, forall_eq_or_imp] at hall
      exact ⟨[c], covered, rfl, ⟨c, rfl, hall.1⟩, hall.2⟩

theorem covers_char {c : Char} {before : Option Char} {covered after : Text} :
    (char c).Covers before covered after ↔ covered = [c] := by
  simp [char, Covers]

/-- A row of single characters covers texts of its length, place by place. -/
theorem covers_all_one {α : Type} {f : α → Char → Bool} {row : List α}
    {before : Option Char} {covered after : Text} :
    (all (row.map fun k => one (f k))).Covers before covered after ↔
      List.Forall₂ (fun k c => f k c = true) row covered := by
  induction row generalizing before covered with
  | nil => simp [all, Covers]
  | cons k row ih =>
    rw [List.map_cons, covers_all_cons]
    simp only [ih, List.forall₂_cons_left_iff]
    constructor
    · rintro ⟨_, v, rfl, ⟨c, rfl, hc⟩, hv⟩
      exact ⟨c, v, hc, hv, rfl⟩
    · rintro ⟨c, v, hc, hv, rfl⟩
      exact ⟨[c], v, rfl, ⟨c, rfl, hc⟩, hv⟩

theorem covers_folded {text : Text} {before : Option Char} {covered after : Text} :
    (folded text).Covers before covered after ↔
      List.Forall₂ (fun k c => Text.sameFolded k c = true) text covered := covers_all_one

theorem covers_literal {text : Text} {before : Option Char} {covered after : Text} :
    (literal text).Covers before covered after ↔ covered = text := by
  unfold literal
  rw [show text.map char = text.map fun k => one (· == k) from rfl,
    covers_all_one (f := fun k c => c == k)]
  constructor
  · intro h
    induction h with
    | nil => rfl
    | cons hc _ ih => rw [beq_iff_eq.mp hc, ih]
  · rintro rfl
    exact List.forall₂_same.mpr (by simp)

/-! ## Searching -/

theorem ends_isEmpty_eq_false_iff {p : Pattern} {before : Option Char} {text : Text} :
    (p.ends ⟨before, text⟩).isEmpty = false ↔
      ∃ covered after, text = covered ++ after ∧ p.Covers before covered after := by
  rw [List.isEmpty_eq_false_iff_exists_mem]
  simp only [mem_ends]
  constructor
  · rintro ⟨found, covered, htext, -, hcovers⟩
    exact ⟨covered, found.rest, htext, hcovers⟩
  · rintro ⟨covered, after, htext, hcovers⟩
    exact ⟨⟨behind before covered, after⟩, covered, htext, rfl, hcovers⟩

/-- A part of `c :: text` begins at its front or lies in `text`. -/
theorem exists_covered_cons_iff {c : Char} {text : Text} {P : Text → Text → Text → Prop} :
    (∃ skipped covered after, c :: text = skipped ++ covered ++ after ∧ P skipped covered after) ↔
      (∃ covered after, c :: text = covered ++ after ∧ P [] covered after) ∨
        ∃ skipped covered after, text = skipped ++ covered ++ after ∧
          P (c :: skipped) covered after := by
  constructor
  · rintro ⟨skipped, covered, after, htext, h⟩
    cases skipped with
    | nil => exact .inl ⟨covered, after, htext, h⟩
    | cons d skipped =>
      simp only [List.cons_append, List.cons.injEq] at htext
      obtain ⟨rfl, htext⟩ := htext
      exact .inr ⟨skipped, covered, after, htext, h⟩
  · rintro (⟨covered, after, htext, h⟩ | ⟨skipped, covered, after, htext, h⟩)
    · exact ⟨[], covered, after, htext, h⟩
    · exact ⟨c :: skipped, covered, after, by simp [htext], h⟩

theorem occursFrom_iff {p : Pattern} {before : Option Char} {text : Text} :
    p.occursFrom before text = true ↔
      ∃ skipped covered after, text = skipped ++ covered ++ after ∧
        p.Covers (behind before skipped) covered after := by
  induction text generalizing before with
  | nil =>
    rw [occursFrom, Bool.not_eq_true', ends_isEmpty_eq_false_iff]
    constructor
    · rintro ⟨covered, after, htext, hcovers⟩
      exact ⟨[], covered, after, htext, hcovers⟩
    · rintro ⟨skipped, covered, after, htext, hcovers⟩
      simp only [List.nil_eq, List.append_eq_nil_iff] at htext
      obtain ⟨⟨rfl, rfl⟩, rfl⟩ := htext
      exact ⟨[], [], rfl, hcovers⟩
  | cons c text ih =>
    rw [occursFrom, Bool.or_eq_true, Bool.not_eq_true', ends_isEmpty_eq_false_iff, ih,
      exists_covered_cons_iff]
    rfl

/-- A pattern occurs in a text exactly if it covers some part of the text. -/
theorem occursIn_iff {p : Pattern} {text : Text} :
    p.occursIn text = true ↔
      ∃ skipped covered after, text = skipped ++ covered ++ after ∧
        p.Covers (behind none skipped) covered after := occursFrom_iff

theorem end?_eq_none_iff {p : Pattern} {before : Option Char} {text : Text} :
    p.end? ⟨before, text⟩ = none ↔
      ∀ covered after, text = covered ++ after → ¬ p.Covers before covered after := by
  have h := not_congr (@ends_isEmpty_eq_false_iff p before text)
  rw [end?, List.head?_eq_none_iff, ← List.isEmpty_iff, ← Bool.not_eq_false, h]
  push Not
  rfl

theorem end?_eq_some {p : Pattern} {before : Option Char} {text : Text} {found : Place}
    (h : p.end? ⟨before, text⟩ = some found) :
    ∃ covered, text = covered ++ found.rest ∧ p.Covers before covered found.rest := by
  obtain ⟨covered, htext, -, hcovers⟩ := mem_ends.mp (List.mem_of_head? h)
  exact ⟨covered, htext, hcovers⟩

theorem firstFrom_eq_some {p : Pattern} {before : Option Char}
    {text skipped covered after : Text}
    (h : p.firstFrom before text = some (skipped, covered, after)) :
    text = skipped ++ covered ++ after ∧ p.Covers (behind before skipped) covered after := by
  induction text generalizing before skipped with
  | nil =>
    rw [firstFrom, Option.map_eq_some_iff] at h
    obtain ⟨found, hfound, h⟩ := h
    obtain ⟨u, htext, hcovers⟩ := end?_eq_some hfound
    simp only [List.nil_eq, List.append_eq_nil_iff] at htext
    simp_all
  | cons c text ih =>
    rw [firstFrom] at h
    split at h
    · rename_i found hfound
      obtain ⟨u, htext, hcovers⟩ := end?_eq_some hfound
      simp only [Option.some.injEq, Prod.mk.injEq] at h
      obtain ⟨rfl, rfl, rfl⟩ := h
      have hu : (c :: text).take (text.length + 1 - found.rest.length) = u := by
        rw [← List.length_cons (a := c), htext, List.length_append, Nat.add_sub_cancel,
          List.take_left]
      rw [hu]
      exact ⟨htext, hcovers⟩
    · rw [Option.map_eq_some_iff] at h
      obtain ⟨⟨skipped', covered', after'⟩, hfirst, h⟩ := h
      simp only [Prod.mk.injEq] at h
      obtain ⟨rfl, rfl, rfl⟩ := h
      obtain ⟨rfl, hcovers⟩ := ih hfirst
      exact ⟨rfl, hcovers⟩

theorem occursFrom_eq_isSome {p : Pattern} {before : Option Char} {text : Text} :
    p.occursFrom before text = (p.firstFrom before text).isSome := by
  induction text generalizing before with
  | nil =>
    rw [occursFrom, firstFrom, Option.isSome_map, end?]
    cases p.ends ⟨before, []⟩ <;> rfl
  | cons c text ih =>
    rw [occursFrom, firstFrom, end?, ih]
    cases p.ends ⟨before, c :: text⟩ <;> simp

/-- The first match cuts its text into what is before it, what it covers and
what is after it. -/
theorem first?_eq_some {p : Pattern} {text skipped covered after : Text}
    (h : p.first? text = some (skipped, covered, after)) :
    text = skipped ++ covered ++ after ∧ p.Covers (behind none skipped) covered after :=
  firstFrom_eq_some h

/-! ## What a match sees -/

/-- Whether a pattern tells neither the end of the text nor a line start from
the start of the text. -/
def isLineLocal : Pattern → Bool
  | start | finish | notAfter _ => false
  | seq first second | alt first second => first.isLineLocal && second.isLineLocal
  | _ => true

/-- Of what comes after it, a match sees one character. -/
theorem Covers.congr_after {p : Pattern} (hp : p.isLineLocal = true) {before : Option Char}
    {covered after after' : Text} (hafter : after.head? = after'.head?)
    (h : p.Covers before covered after) : p.Covers before covered after' := by
  induction p generalizing before covered after after' with
  | empty | one | many | lineStart => exact h
  | start | finish | notAfter => simp [isLineLocal] at hp
  | wordEdge => simpa [Covers, Place.atWordEdge, hafter] using h
  | notBefore => simpa [Covers, hafter] using h
  | seq first second ihFirst ihSecond =>
    simp only [isLineLocal, Bool.and_eq_true] at hp
    obtain ⟨u, v, rfl, hu, hv⟩ := h
    refine ⟨u, v, rfl, ihFirst hp.1 ?_ hu, ihSecond hp.2 hafter hv⟩
    simp [List.head?_append, hafter]
  | alt first second ihFirst ihSecond =>
    simp only [isLineLocal, Bool.and_eq_true] at hp
    exact h.imp (ihFirst hp.1 hafter) (ihSecond hp.2 hafter)

/-- Of what comes before it, a match sees whether it is a word character and
whether a line starts there. -/
theorem Covers.congr_before {p : Pattern} (hp : p.isLineLocal = true)
    {before before' : Option Char} {covered after : Text}
    (hword : before.any Text.isWord = before'.any Text.isWord)
    (hline : startsLine before → startsLine before')
    (h : p.Covers before covered after) : p.Covers before' covered after := by
  induction p generalizing before before' covered after with
  | empty | one | many | notBefore => exact h
  | start | finish | notAfter => simp [isLineLocal] at hp
  | lineStart => exact ⟨h.1, hline h.2⟩
  | wordEdge => simpa [Covers, Place.atWordEdge, hword] using h
  | seq first second ihFirst ihSecond =>
    simp only [isLineLocal, Bool.and_eq_true] at hp
    obtain ⟨u, v, rfl, hu, hv⟩ := h
    refine ⟨u, v, rfl, ihFirst hp.1 hword hline hu, ?_⟩
    cases u with
    | nil => exact ihSecond hp.2 hword hline hv
    | cons c u => exact hv
  | alt first second ihFirst ihSecond =>
    simp only [isLineLocal, Bool.and_eq_true] at hp
    exact h.imp (ihFirst hp.1 hword hline) (ihSecond hp.2 hword hline)

/-- Whether a pattern takes no character but those of a class. -/
def Takes (P : Char → Prop) : Pattern → Prop
  | one accepts | many accepts => ∀ c, accepts c = true → P c
  | seq first second | alt first second => first.Takes P ∧ second.Takes P
  | _ => True

theorem Covers.all {P : Char → Prop} {p : Pattern} (hp : p.Takes P) {before : Option Char}
    {covered after : Text} (h : p.Covers before covered after) : ∀ c ∈ covered, P c := by
  induction p generalizing before covered after with
  | empty => simp_all [Covers]
  | start | lineStart | notAfter | finish | wordEdge | notBefore =>
    obtain ⟨rfl, -⟩ := h
    simp
  | one accepts =>
    obtain ⟨c, rfl, hc⟩ := h
    simpa using hp c hc
  | many accepts => exact fun c hc => hp c (h c hc)
  | seq first second ihFirst ihSecond =>
    obtain ⟨u, v, rfl, hu, hv⟩ := h
    intro c hc
    rcases List.mem_append.mp hc with hc | hc
    · exact ihFirst hp.1 hu c hc
    · exact ihSecond hp.2 hv c hc
  | alt first second ihFirst ihSecond =>
    exact h.elim (ihFirst hp.1) (ihSecond hp.2)

end Pattern

end Namespacer
