import Namespacer.Rendering
import Namespacer.Proofs.AsciiCase
import Namespacer.Proofs.Matching
import Namespacer.Proofs.ReferenceCoverage
import Mathlib.Data.Nat.Find

/-!
# Rendering changes the first open tag

An open tag is found by a pattern that backtracks: `<?` may be followed by `php`, but only if
the word ends there, and what is covered may not be followed by `=`. Here the tags of a text are
read off its characters: a tag is at every `<?` that is not followed by `=`, and it is five
characters long if `php` follows, in any case, and then neither a word character nor `=`.

* `HasTagAt`, `tagLength`: the tags of a text; `openTag_end?`: those that the pattern finds.
* `replaceOpenTag_of_isFirstTag`: the header takes the place of the first tag.
* `IsFirstLine`, `exists_isFirstLine`: the line of a template that is looked at, as a part of the
  text; `IsFirstLine.isFirstTag`: its first tag is that of the text.
* `SourceFile.render_at_first_tag`: what is rendered, for every file.
-/

namespace Namespacer

open Pattern

variable {text : Text} {place : Nat} {before : Option Char}

/-! ## Tags -/

/-- Whether `<?` stands at a place. -/
def OpensAt (text : Text) (place : Nat) : Prop :=
  text[place]? = some '<' ∧ text[place + 1]? = some '?'

/-- Whether there is an open tag at a place: `<?` stands there, and no `=` follows. -/
def HasTagAt (text : Text) (place : Nat) : Prop :=
  OpensAt text place ∧ text[place + 2]? ≠ some '='

instance (text : Text) (place : Nat) : Decidable (HasTagAt text place) :=
  inferInstanceAs (Decidable ((_ ∧ _) ∧ _))

/-- Whether what follows `<?` makes a long tag of it: `php` in any case, and then neither a word
character nor `=`. -/
def isLongTag (rest : Text) : Bool :=
  (rest.take 3).map Char.toLower == "php".toList &&
    rest[3]?.all fun c => !Text.isWord c && c != '='

/-- The length of the tag at a place. -/
def tagLength (text : Text) (place : Nat) : Nat :=
  if isLongTag (text.drop (place + 2)) then 5 else 2

/-- The first tag of a text. -/
structure IsFirstTag (text : Text) (place : Nat) : Prop where
  tag : HasTagAt text place
  first : ∀ earlier < place, ¬ HasTagAt text earlier

theorem not_hasTagAt_nil : ¬ HasTagAt [] place := by
  simp [HasTagAt, OpensAt]

@[simp] theorem hasTagAt_cons_succ {c : Char} :
    HasTagAt (c :: text) (place + 1) ↔ HasTagAt text place := by
  simp [HasTagAt, OpensAt, Nat.add_right_comm _ 1]

@[simp] theorem tagLength_cons_succ {c : Char} :
    tagLength (c :: text) (place + 1) = tagLength text place := by
  simp [tagLength, Nat.add_right_comm _ 1]

/-- Where there is a tag, there is a first one. -/
theorem exists_isFirstTag (h : HasTagAt text place) : ∃ first, IsFirstTag text first :=
  have hexists : ∃ place, HasTagAt text place := ⟨place, h⟩
  ⟨Nat.find hexists, Nat.find_spec hexists, fun _ => Nat.find_min hexists⟩

/-! ## Tags and the pattern -/

theorem eq_or_eq_of_toLower_eq {c : Char} (h : c.toLower = 'p') : c = 'p' ∨ c = 'P' := by
  have hrow : ∀ n < 128, (Char.ofNat n).toLower = 'p' →
      Char.ofNat n = 'p' ∨ Char.ofNat n = 'P' := by decide
  refine Text.forall_ascii (P := fun c => c.toLower = 'p' → c = 'p' ∨ c = 'P') hrow ?_ h
  exact Text.toNat_lt_of_toLower (by rw [h]; decide)

/-- What stands before `=` does not begin with `php`. -/
theorem head?_ne_of_php {rest : Text} (h : (rest.take 3).map Char.toLower = "php".toList) :
    rest.head?.any (· == '=') = false := by
  cases rest with
  | nil => rfl
  | cons c rest =>
    have hlower : c.toLower = 'p' := by simpa using congrArg List.head? h
    rcases eq_or_eq_of_toLower_eq hlower with rfl | rfl <;> rfl

theorem ends_folded_php (before : Option Char) (rest : Text) :
    (folded "php".toList).ends ⟨before, rest⟩ =
      if (rest.take 3).map Char.toLower = "php".toList then [⟨rest[2]?, rest.drop 3⟩] else [] := by
  have hp (c : Char) : Text.sameFolded 'p' c = decide (c.toLower = 'p') := by
    rw [Bool.eq_iff_iff, decide_eq_true_iff]
    exact Text.sameFolded_iff (by decide) (by decide)
  have hh (c : Char) : Text.sameFolded 'h' c = decide (c.toLower = 'h') := by
    rw [Bool.eq_iff_iff, decide_eq_true_iff]
    exact Text.sameFolded_iff (by decide) (by decide)
  match rest with
  | [] => simp [folded, all, ends]
  | [a] => simp [folded, all, ends, hp]
  | [a, b] => simp [folded, all, ends, hp, hh]
  | a :: b :: c :: rest =>
    by_cases ha : a.toLower = 'p' <;> by_cases hb : b.toLower = 'h' <;>
      by_cases hc : c.toLower = 'p' <;> simp [folded, all, ends, hp, hh, ha, hb, hc]

theorem ends_php_wordEdge (before : Option Char) (rest : Text) :
    (Pattern.seq (folded "php".toList) wordEdge).ends ⟨before, rest⟩ =
      if (rest.take 3).map Char.toLower = "php".toList ∧ rest[3]?.any Text.isWord = false then
        [⟨rest[2]?, rest.drop 3⟩]
      else [] := by
  rw [Pattern.ends, ends_folded_php]
  by_cases hphp : (rest.take 3).map Char.toLower = "php".toList
  · have hlast : rest[2]?.any Text.isWord = true := by
      have hget := congrArg (·[2]?) hphp
      have hlower : rest[2]?.map Char.toLower = some 'p' := by simpa using hget
      obtain ⟨c, hc, hlower⟩ := Option.map_eq_some_iff.mp hlower
      rw [hc, Option.any_some]
      rcases eq_or_eq_of_toLower_eq hlower with rfl | rfl <;> decide
    rw [if_pos hphp, List.flatMap_singleton, Pattern.ends, Place.atWordEdge, hlast, Place.stayIf,
      List.head?_drop]
    simp [hphp]
  · rw [if_neg hphp, if_neg fun h => hphp h.1, List.flatMap_nil]

/-- Where the match of an open tag ends that begins with `<?`. The long form is preferred, and
given up where it ends in a word or before `=`. -/
theorem openTag_end?_opened (before : Option Char) (rest : Text) :
    (openTag.end? ⟨before, '<' :: '?' :: rest⟩).map Place.rest =
      if isLongTag rest then some (rest.drop 3)
      else if rest.head?.any (· == '=') then none else some rest := by
  have hends : openTag.ends ⟨before, '<' :: '?' :: rest⟩ =
      ((Pattern.seq (folded "php".toList) wordEdge).ends ⟨some '?', rest⟩ ++
        [(⟨some '?', rest⟩ : Place)]).flatMap (notBefore (· == '=')).ends := by
    simp [openTag, all, literal, char, ends, Pattern.optional]
  have hlong : isLongTag rest = true ↔
      ((rest.take 3).map Char.toLower = "php".toList ∧ rest[3]?.any Text.isWord = false) ∧
        rest[3]?.any (· == '=') = false := by
    rw [isLongTag, Bool.and_eq_true, beq_iff_eq, and_assoc]
    refine and_congr_right fun _ => ?_
    cases rest[3]? <;> simp
  rw [end?, hends, ends_php_wordEdge]
  by_cases hphp : (rest.take 3).map Char.toLower = "php".toList ∧ rest[3]?.any Text.isWord = false
  · rw [if_pos hphp]
    cases hequals : rest[3]?.any (· == '=') with
    | false =>
      rw [if_pos (hlong.mpr ⟨hphp, hequals⟩)]
      simp [Pattern.ends, Place.stayIf, hequals]
    | true =>
      have hnot : ¬ isLongTag rest = true := by
        rw [hlong, hequals]
        exact fun h => Bool.noConfusion h.2
      rw [if_neg hnot]
      simp [Pattern.ends, Place.stayIf, hequals, head?_ne_of_php hphp.1]
  · rw [if_neg hphp, if_neg (c := isLongTag rest = true) fun h => hphp (hlong.mp h).1]
    cases hequals : rest.head?.any (· == '=') <;> simp [Pattern.ends, Place.stayIf, hequals]

/-- Where the match of an open tag ends that begins at the front of a text. -/
theorem openTag_end? (before : Option Char) (text : Text) :
    (openTag.end? ⟨before, text⟩).map Place.rest =
      if HasTagAt text 0 then some (text.drop (tagLength text 0)) else none := by
  match text with
  | [] => simp [openTag, all, literal, char, end?, ends, not_hasTagAt_nil]
  | [a] =>
    by_cases ha : a = '<' <;>
      simp [openTag, all, literal, char, end?, ends, HasTagAt, OpensAt, ha]
  | a :: b :: rest =>
    by_cases hopen : a = '<' ∧ b = '?'
    · obtain ⟨rfl, rfl⟩ := hopen
      have htag : HasTagAt ('<' :: '?' :: rest) 0 ↔ rest.head?.any (· == '=') = false := by
        simp only [HasTagAt, OpensAt]
        cases rest <;> simp
      have hlength : tagLength ('<' :: '?' :: rest) 0 = if isLongTag rest then 5 else 2 := rfl
      rw [openTag_end?_opened, hlength]
      simp only [htag]
      by_cases hlong : isLongTag rest = true
      · have hphp : (rest.take 3).map Char.toLower = "php".toList := by
          rw [isLongTag, Bool.and_eq_true, beq_iff_eq] at hlong
          exact hlong.1
        rw [if_pos hlong, if_pos hlong, if_pos (head?_ne_of_php hphp)]
        rfl
      · rw [if_neg hlong, if_neg hlong]
        cases rest.head?.any (· == '=') <;> rfl
    · have hends : openTag.ends ⟨before, a :: b :: rest⟩ = [] := by
        by_cases ha : a = '<'
        · have hb : b ≠ '?' := fun hb => hopen ⟨ha, hb⟩
          simp [openTag, all, literal, char, ends, ha, hb]
        · simp [openTag, all, literal, char, ends, ha]
      have hnot : ¬ HasTagAt (a :: b :: rest) 0 := by
        rintro ⟨⟨ha, hb⟩, -⟩
        exact hopen ⟨Option.some.inj ha, Option.some.inj hb⟩
      rw [end?, hends, if_neg hnot]
      rfl

/-! ## The first tag -/

theorem openTag_end?_eq_none (h : ¬ HasTagAt text 0) : openTag.end? ⟨before, text⟩ = none := by
  have hend := openTag_end? before text
  rwa [if_neg h, Option.map_eq_none_iff] at hend

theorem exists_openTag_end? (before : Option Char) (h : HasTagAt text 0) :
    ∃ found, openTag.end? ⟨before, text⟩ = some found ∧
      found.rest = text.drop (tagLength text 0) := by
  have hend := openTag_end? before text
  rwa [if_pos h, Option.map_eq_some_iff] at hend

/-- There is no match in a text without tags. -/
theorem firstFrom_openTag_eq_none (h : ∀ place, ¬ HasTagAt text place) :
    openTag.firstFrom before text = none := by
  induction text generalizing before with
  | nil => rw [firstFrom, openTag_end?_eq_none (h 0), Option.map_none]
  | cons c text ih =>
    rw [firstFrom, openTag_end?_eq_none (h 0)]
    simp only [ih fun place => hasTagAt_cons_succ.not.mp (h (place + 1)), Option.map_none]

/-- The leftmost match covers the first tag. -/
theorem firstFrom_openTag_eq_some (before : Option Char) (h : IsFirstTag text place) :
    ∃ covered, openTag.firstFrom before text =
      some (text.take place, covered, text.drop (place + tagLength text place)) := by
  induction text generalizing before place with
  | nil => exact absurd h.tag not_hasTagAt_nil
  | cons c text ih =>
    cases place with
    | zero =>
      obtain ⟨found, hfound, hrest⟩ := exists_openTag_end? before h.tag
      refine ⟨(c :: text).take (text.length + 1 - found.rest.length), ?_⟩
      rw [firstFrom, hfound]
      simp only [hrest, List.take_zero, Nat.zero_add]
    | succ place =>
      have hfirst : IsFirstTag text place :=
        ⟨hasTagAt_cons_succ.mp h.tag, fun earlier hlt htag =>
          h.first (earlier + 1) (by omega) (hasTagAt_cons_succ.mpr htag)⟩
      obtain ⟨covered, hcovered⟩ := ih (some c) hfirst
      refine ⟨covered, ?_⟩
      rw [firstFrom, openTag_end?_eq_none (h.first 0 (by omega))]
      simp only [hcovered, Option.map_some, List.take_succ_cons, tagLength_cons_succ,
        Nat.add_right_comm place 1, List.drop_succ_cons]

theorem occursIn_openTag_iff : openTag.occursIn text = true ↔ ∃ place, HasTagAt text place := by
  rw [occursIn, occursFrom_eq_isSome]
  constructor
  · intro h
    by_contra hnone
    rw [firstFrom_openTag_eq_none (not_exists.mp hnone)] at h
    cases h
  · rintro ⟨place, htag⟩
    obtain ⟨first, hfirst⟩ := exists_isFirstTag htag
    obtain ⟨covered, hcovered⟩ := firstFrom_openTag_eq_some none hfirst
    rw [hcovered, Option.isSome_some]

/-- A text with a header in the place of the tag at a place. -/
def withHeaderAt (header text : Text) (place : Nat) : Text :=
  text.take place ++ header ++ text.drop (place + tagLength text place)

theorem replaceOpenTag_eq_none {header : Text} (h : ∀ place, ¬ HasTagAt text place) :
    replaceOpenTag header text = none := by
  rw [replaceOpenTag, first?, firstFrom_openTag_eq_none h, Option.map_none]

theorem replaceOpenTag_of_isFirstTag {header : Text} (h : IsFirstTag text place) :
    replaceOpenTag header text = some (withHeaderAt header text place) := by
  obtain ⟨covered, hcovered⟩ := firstFrom_openTag_eq_some none h
  rw [replaceOpenTag, first?, hcovered, Option.map_some, withHeaderAt]

theorem exists_of_replaceOpenTag {header result : Text}
    (h : replaceOpenTag header text = some result) :
    ∃ place, IsFirstTag text place ∧ result = withHeaderAt header text place := by
  by_cases hnone : ∀ place, ¬ HasTagAt text place
  · rw [replaceOpenTag_eq_none hnone] at h
    cases h
  · push Not at hnone
    obtain ⟨place, htag⟩ := hnone
    obtain ⟨first, hfirst⟩ := exists_isFirstTag htag
    rw [replaceOpenTag_of_isFirstTag hfirst] at h
    exact ⟨first, hfirst, (Option.some.inj h).symm⟩

/-- A header that is longer than a tag makes a text longer. -/
theorem length_lt_withHeaderAt {header : Text} (h : 5 < header.length) :
    text.length < (withHeaderAt header text place).length := by
  have hlength : tagLength text place ≤ 5 := by
    rw [tagLength]
    split <;> decide
  rw [withHeaderAt, List.length_append, List.length_append, List.length_take, List.length_drop]
  omega

/-- What is rendered is longer than the contents of the file. -/
theorem SourceFile.length_lt_of_render {file : SourceFile} {result : Text}
    (h : file.render = some result) : file.contents.length < result.length := by
  have hheader (rest : Text) : 5 < (phpHeader ++ rest).length := by
    rw [List.length_append, show phpHeader.length = 7 from rfl]
    omega
  rw [SourceFile.render] at h
  split at h
  · rw [renderTemplate] at h
    split at h
    · cases h
    dsimp only at h
    split at h
    · obtain ⟨place, -, rfl⟩ := exists_of_replaceOpenTag h
      exact length_lt_withHeaderAt (hheader _)
    · rw [← Option.some.inj h, List.length_append]
      have hlong := hheader (useBlock file.imports ++ "\n?>\n\n".toList)
      rw [← List.append_assoc] at hlong
      omega
  · obtain ⟨place, -, rfl⟩ := exists_of_replaceOpenTag h
    rw [classHeader, List.append_assoc]
    exact length_lt_withHeaderAt (hheader _)

/-! ## The first line -/

/-- The first line of a text that is not blank, as a part of it: blank lines come before it, and
it goes on to the next line end. -/
structure IsFirstLine (text before line after : Text) : Prop where
  split : text = before ++ line ++ after
  blank : ∀ c ∈ before, Text.isBlank c = true
  starts : ∀ c ∈ before.getLast?, Text.isLineBreak c = true
  unbroken : ∀ c ∈ line, Text.isLineBreak c = false
  not_blank : ∃ c ∈ line, Text.isBlank c = false
  ends : ∀ c ∈ after.head?, Text.isLineBreak c = true

theorem isBlank_of_isLineBreak {c : Char} (h : Text.isLineBreak c = true) :
    Text.isBlank c = true := by
  simp only [Text.isLineBreak, Text.isBlank, Bool.or_eq_true, Bool.and_eq_true, decide_eq_true_eq,
    beq_iff_eq] at h ⊢
  split <;> simp only [Bool.or_eq_true, Bool.and_eq_true, decide_eq_true_eq, beq_iff_eq] <;> omega

/-- A line at the front of a text is the first one if it is not blank. -/
theorem isFirstLine_front {line after : Text} (hline : ∀ c ∈ line, Text.isLineBreak c = false)
    (hstrip : Text.strip line ≠ []) (hafter : ∀ c ∈ after.head?, Text.isLineBreak c = true) :
    IsFirstLine (line ++ after) [] line after where
  split := rfl
  blank := by simp
  starts := by simp
  unbroken := hline
  not_blank := by
    rw [Ne, Text.strip_eq_nil_iff] at hstrip
    push Not at hstrip
    simpa using hstrip
  ends := hafter

/-- Behind a blank line the first line stays the first one. -/
theorem IsFirstLine.behind {before line after skipped ending : Text}
    (h : IsFirstLine text before line after) (hstrip : Text.strip skipped = [])
    (hending : ∀ c ∈ ending, Text.isLineBreak c = true) (hne : ending ≠ []) :
    IsFirstLine (skipped ++ ending ++ text) (skipped ++ ending ++ before) line after where
  split := by simp [h.split]
  blank := by
    rw [List.forall_mem_append, List.forall_mem_append]
    exact ⟨⟨Text.strip_eq_nil_iff.mp hstrip, fun c hc => isBlank_of_isLineBreak (hending c hc)⟩,
      h.blank⟩
  starts := by
    intro c hc
    by_cases hbefore : before = []
    · rw [hbefore, List.append_nil, List.getLast?_append_of_ne_nil _ hne] at hc
      exact hending c (List.mem_of_getLast? hc)
    · rw [List.getLast?_append_of_ne_nil _ hbefore] at hc
      exact h.starts c hc
  unbroken := h.unbroken
  not_blank := h.not_blank
  ends := h.ends

theorem find?_lines_cons {line found : Text} {lines : List Text}
    (h : (line :: lines).find? (fun line => !(Text.strip line).isEmpty) = some found) :
    Text.strip line ≠ [] ∧ found = line ∨
      Text.strip line = [] ∧ lines.find? (fun line => !(Text.strip line).isEmpty) = some found := by
  rw [List.find?_cons] at h
  split at h
  · rename_i hline
    exact .inl ⟨by simpa using hline, (Option.some.inj h).symm⟩
  · rename_i hline
    exact .inr ⟨by simpa using hline, h⟩

/-- The first line that is found while lines are cut off, the first of them begun already. -/
theorem isFirstLine_of_find?_linesFrom (start : Text) {line : Text}
    (hstart : ∀ c ∈ start, Text.isLineBreak c = false)
    (h : (Text.linesFrom start text).find? (fun line => !(Text.strip line).isEmpty) = some line) :
    ∃ before after, IsFirstLine (start.reverse ++ text) before line after := by
  have hreverse {start : Text} (hstart : ∀ c ∈ start, Text.isLineBreak c = false) :
      ∀ c ∈ start.reverse, Text.isLineBreak c = false := by simpa using hstart
  fun_induction Text.linesFrom start text with
  | case1 start hempty => cases h
  | case2 start hempty =>
    rcases find?_lines_cons h with ⟨hstrip, rfl⟩ | ⟨-, h⟩
    · exact ⟨[], [], isFirstLine_front (hreverse hstart) hstrip (by simp)⟩
    · cases h
  | case3 start text ih =>
    have hends : ∀ c ∈ ['\r', '\n'], Text.isLineBreak c = true := by
      rw [List.forall_mem_cons, List.forall_mem_singleton]
      exact ⟨rfl, rfl⟩
    have hfront : ∀ c ∈ ('\r' :: '\n' :: text).head?, Text.isLineBreak c = true := by
      intro c hc
      rw [← Option.some.inj hc]
      exact hends '\r' List.mem_cons_self
    rcases find?_lines_cons h with ⟨hstrip, rfl⟩ | ⟨hstrip, h⟩
    · exact ⟨[], '\r' :: '\n' :: text, isFirstLine_front (hreverse hstart) hstrip hfront⟩
    · obtain ⟨before, after, hline⟩ := ih (by simp) h
      exact ⟨_, after, by simpa using hline.behind hstrip hends (by simp)⟩
  | case4 start c text _ hbreak ih =>
    have hends : ∀ d ∈ [c], Text.isLineBreak d = true := by simpa using hbreak
    rcases find?_lines_cons h with ⟨hstrip, rfl⟩ | ⟨hstrip, h⟩
    · exact ⟨[], c :: text, isFirstLine_front (hreverse hstart) hstrip (by simpa using hbreak)⟩
    · obtain ⟨before, after, hline⟩ := ih (by simp) h
      exact ⟨_, after, by simpa using hline.behind hstrip hends (by simp)⟩
  | case5 start c text _ hbreak ih =>
    have hstart' : ∀ d ∈ c :: start, Text.isLineBreak d = false :=
      List.forall_mem_cons.mpr ⟨by simpa using hbreak, hstart⟩
    obtain ⟨before, after, hline⟩ := ih hstart' h
    exact ⟨before, after, by simpa using hline⟩

/-- A text with a line that is not blank has a first one. -/
theorem exists_isFirstLine (h : firstLine text ≠ []) :
    ∃ before after, IsFirstLine text before (firstLine text) after := by
  rw [firstLine] at h ⊢
  cases hfind : (Text.lines text).find? fun line => !(Text.strip line).isEmpty with
  | none =>
    rw [hfind] at h
    exact absurd rfl h
  | some line => exact isFirstLine_of_find?_linesFrom [] (by simp) hfind

/-- What follows a line does not change its tags: it is a line end, and no `=`. -/
theorem hasTagAt_append_iff {front after : Text}
    (hafter : ∀ c ∈ after.head?, Text.isLineBreak c = true) (hplace : place + 1 < front.length) :
    HasTagAt (front ++ after) place ↔ HasTagAt front place := by
  have hequals : (front ++ after)[place + 2]? ≠ some '=' ↔ front[place + 2]? ≠ some '=' := by
    by_cases hlast : place + 2 < front.length
    · rw [List.getElem?_append_left hlast]
    · have hend : front.length = place + 2 := by omega
      rw [List.getElem?_append_right hend.le, hend, Nat.sub_self, ← List.head?_eq_getElem?,
        List.getElem?_eq_none hend.le]
      refine iff_of_true (fun hhead => ?_) (by simp)
      have hbreak := hafter '=' hhead
      revert hbreak
      decide
  rw [HasTagAt, HasTagAt, OpensAt, OpensAt, hequals, List.getElem?_append_left hplace,
    List.getElem?_append_left (by omega)]

/-- The first tag of the first line is that of the text, for there is none in blank lines. -/
theorem IsFirstLine.isFirstTag {before line after : Text}
    (h : IsFirstLine text before line after) (htag : IsFirstTag line place) :
    IsFirstTag text (before.length + place) := by
  obtain ⟨hlast, -⟩ := List.getElem?_eq_some_iff.mp htag.tag.1.2
  have hbehind (n : Nat) : HasTagAt text (before.length + n) ↔ HasTagAt (line ++ after) n := by
    rw [h.split, List.append_assoc]
    simp only [HasTagAt, OpensAt, Nat.add_assoc, List.getElem?_append_right (Nat.le_add_right _ _),
      Nat.add_sub_cancel_left]
  refine ⟨(hbehind place).mpr ((hasTagAt_append_iff h.ends hlast).mpr htag.tag), ?_⟩
  intro earlier hlt hearlier
  by_cases hbefore : earlier < before.length
  · have hopen := hearlier.1.1
    rw [h.split, List.append_assoc, List.getElem?_append_left hbefore] at hopen
    have hblank := h.blank '<' (List.mem_of_getElem? hopen)
    revert hblank
    decide
  · obtain ⟨n, rfl⟩ := Nat.exists_eq_add_of_le (Nat.le_of_not_lt hbefore)
    rw [hbehind, hasTagAt_append_iff h.ends (by omega)] at hearlier
    exact htag.first n (by omega) hearlier

/-! ## Rendering -/

/-- What a file is rendered to. A class file is left alone if every `<?` is followed by `=`.
If not, its header takes the place of the first tag. A template without imports is left
alone. If it has some, they take the place of the first tag of its first line that is not blank,
which is the first one of the text, or they stand before the text in tags of their own. -/
theorem SourceFile.render_at_first_tag (file : SourceFile) :
    (file.isTemplate = false →
      (file.render = none ↔
        ∀ place, OpensAt file.contents place → file.contents[place + 2]? = some '=') ∧
      ∀ place, IsFirstTag file.contents place →
        file.render = some (withHeaderAt (classHeader file) file.contents place)) ∧
    (file.isTemplate = true →
      (file.imports = [] → file.render = none) ∧
      (file.imports ≠ [] →
        (∀ place, IsFirstTag (firstLine file.contents) place →
          ∃ before after, IsFirstLine file.contents before (firstLine file.contents) after ∧
            IsFirstTag file.contents (before.length + place) ∧
            file.render = some (withHeaderAt (phpHeader ++ useBlock file.imports) file.contents
              (before.length + place))) ∧
        ((∀ place, ¬ HasTagAt (firstLine file.contents) place) →
          file.render =
            some (phpHeader ++ useBlock file.imports ++ "\n?>\n\n" ++ file.contents)))) := by
  refine ⟨fun htemplate => ?_, fun htemplate => ⟨fun himports => ?_, fun himports => ⟨?_, ?_⟩⟩⟩
  · rw [SourceFile.render, if_neg (by simp [htemplate])]
    refine ⟨⟨fun hnone place hopen => ?_, fun hechoes => ?_⟩, fun place htag =>
      replaceOpenTag_of_isFirstTag htag⟩
    · by_contra hequals
      have htag : HasTagAt file.contents place := ⟨hopen, hequals⟩
      obtain ⟨first, hfirst⟩ := exists_isFirstTag htag
      rw [replaceOpenTag_of_isFirstTag hfirst] at hnone
      cases hnone
    · exact replaceOpenTag_eq_none fun place htag => htag.2 (hechoes place htag.1)
  · rw [SourceFile.render, if_pos htemplate, renderTemplate, himports]
    rfl
  · intro place htag
    have hline : firstLine file.contents ≠ [] := by
      intro hnil
      rw [hnil] at htag
      exact not_hasTagAt_nil htag.tag
    obtain ⟨before, after, hsplit⟩ := exists_isFirstLine hline
    have hfirst := hsplit.isFirstTag htag
    refine ⟨before, after, hsplit, hfirst, ?_⟩
    rw [SourceFile.render, if_pos htemplate, renderTemplate, if_neg (by simpa using himports)]
    dsimp only
    rw [if_pos (occursIn_openTag_iff.mpr ⟨place, htag.tag⟩), replaceOpenTag_of_isFirstTag hfirst]
  · intro hnone
    rw [SourceFile.render, if_pos htemplate, renderTemplate, if_neg (by simpa using himports)]
    dsimp only
    rw [if_neg (occursIn_openTag_iff.not.mpr (not_exists.mpr hnone))]

/-- A class file with an echo tag, and a short tag before a word that looks like that of a long
one. -/
def echoPage : SourceFile where
  path := ⟨[], ["Page.php".toList]⟩
  typeName := "Page".toList
  contents := "<?= 1 ?>\n<?PHP= 2;".toList
  namespaceName := some "App".toList

theorem render_at_first_tag_echoPage :
    echoPage.isTemplate = false ∧ IsFirstTag echoPage.contents 9 ∧
      echoPage.render =
        some "<?= 1 ?>\n<?php\n\nnamespace App;\n\nPHP= 2;".toList := by
  have htemplate : echoPage.isTemplate = false := by decide
  have htag : IsFirstTag echoPage.contents 9 := ⟨by decide, by decide⟩
  have htext : withHeaderAt (classHeader echoPage) echoPage.contents 9 =
      "<?= 1 ?>\n<?php\n\nnamespace App;\n\nPHP= 2;".toList := by decide
  refine ⟨htemplate, htag, ?_⟩
  rw [(SourceFile.render_at_first_tag echoPage).1 htemplate |>.2 9 htag, htext]

end Namespacer
