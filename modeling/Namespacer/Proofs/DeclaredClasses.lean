import Namespacer.Proofs.AccountedStatements
import Namespacer.Proofs.ReferenceCoverage
import Namespacer.Proofs.RenamedForms

/-!
# Declarations in a text and in its tree

A text is taken to declare a name if one of the words `class`, `interface`, `trait` and `enum`
stands in it, then blanks, then the name. This is a search in the text as it is, so it also finds
what the grammar reads in another way. `Imports.DeclarationAt` is a place where the search finds a
name, and `Imports.DeclarationAt.Misread` says what such a place may be for the grammar: something
else than two words, a part of what is passed over, a constant with a type, a declaration that the
conversion drops, or one of another name, since the search takes some letters beyond ASCII for
letters of the name.

Whoever parses the text, two things are asked of its tree: that it follows the grammar, and that it
accounts for the tokens that the text is taken for.

* `Concrete.Sound.within_toTree`: a declaration that is not dropped stands in the tree.
* `Imports.declaresClass_of_isDeclared`: at every place where a name is found and that is not
  misread, the tree declares a class with this name.
* `Imports.not_forall_declaresClass`: without the places that are misread this is false.
-/

namespace Namespacer

variable {tools : Tools}

/-! ## Trees in trees -/

namespace Tree

/-- A tree stands in another one: it is this one, or it stands in a part of it or in the subject
of a type test. -/
inductive Within (inner : Tree) : Tree → Prop where
  | self : Within inner inner
  | part {tree part : Tree} (hpart : part ∈ tree.parts) (h : Within inner part) : Within inner tree
  | subject {subject : Tree} {type : Option Name} (h : Within inner subject) :
      Within inner (.instanceOf (some subject) type)

theorem rises_within (declaration : ClassDeclaration Tree) :
    Rises (Within (.classDecl declaration)) where
  part := .part
  leaf := fun label h => by
    cases h with
    | part hpart => simp [parts] at hpart
  block := fun h => by
    cases h with
    | part hpart h => exact ⟨_, hpart, h⟩

end Tree

namespace Concrete

variable {μ : Type} {source : Text} {n m : Concrete μ}

/-- A child that the conversion drops. The first operand of a type test is kept, although no name
is looked for in it. -/
def Dropped (source : Text) (n c : Concrete μ) : Prop :=
  Hidden source n c ∧ ¬ (n.isTypeTest source ∧ n.childAt? "left" = some c)

/-- In a sound tree, every declaration that is not dropped stands in the syntax tree. -/
theorem Sound.within_toTree (hn : Sound source n) (hm : Reaches (Dropped source) n m)
    (hshape : Shape.ofKind? m.kind = some .declaration) (hchildren : m.children ≠ []) :
    Tree.Within (m.toTree source) (n.toTree source) := by
  have hrises : Tree.Rises (Tree.Within (m.toTree source)) := by
    rw [toTree_of_shape hshape, shaped]
    exact Tree.rises_within _
  induction hm with
  | self => exact .self
  | @child n c m hopen hc havoided hreach ih =>
    obtain ⟨_, hbelow, hgives, _, _⟩ := hn
    have hchild := hbelow c hc
    have hfound := ih hchild hshape hchildren hrises
    cases hvisible : c.isVisible with
    | true =>
      rcases hgives c (List.mem_filter.mpr ⟨hc, hvisible⟩) with h | h | h
      · simp [hopen] at h
      · obtain ⟨htest, hleft⟩ : n.isTypeTest source ∧ n.childAt? "left" = some c :=
          not_not.mp fun hother => havoided ⟨h, hother⟩
        rw [toTree_of_shape htest.1, shaped]
        simp only [htest.2, if_true, hleft, Option.map_some]
        exact .subject hfound
      · exact h _ hrises hfound
    | false =>
      -- An invisible node holds nothing, so it is not the declaration.
      rcases Bool.and_eq_false_iff.mp hvisible with hnamed | hcomment
      · obtain ⟨_, _, _, hleaf, _⟩ := hchild
        obtain rfl := hreach.eq_of_childless (hleaf hnamed)
        exact absurd (hleaf hnamed) hchildren
      · have hkind : c.kind = "comment" := by simpa using hcomment
        obtain rfl := hreach.eq_of_isOpaqueKind (by rw [hkind]; rfl)
        rw [hkind] at hshape
        cases hshape

theorem name_classOf (convert : Concrete μ → Tree) :
    (n.classOf source convert).name = declaredName? source (n.childAt? "name") := by
  have hfold (members : List (Concrete μ)) (declaration : ClassDeclaration Tree) :
      (members.foldl (addMember source convert) declaration).name = declaration.name := by
    induction members generalizing declaration with
    | nil => rfl
    | cons c members ih =>
      rw [List.foldl_cons, ih, addMember]
      split <;> rfl
  exact hfold _ _

/-- A node is plain if no node of its tree has a shape. -/
theorem isPlain_of_nodes (h : ∀ m ∈ n.nodes, Shape.ofKind? m.kind = none) : IsPlain n := by
  induction n using induction_children with
  | step n ih =>
    refine ⟨n, h n (mem_nodes_self n), fun _ c hc => ?_⟩
    have hchild := mem_children_of_mem_visible hc
    refine ih c hchild fun m hm => h m ?_
    exact mem_nodes_of_mem_descendants (mem_nodesAll.mpr ⟨c, hchild, hm⟩)

/-- Whether a node hides none of its children, be it because it has none. -/
def opensAll (n : Concrete μ) : Bool :=
  n.children.isEmpty || n.hidesNothing && !isOpaqueKind n.kind

/-- Every node of a tree is reached if no node on the way hides anything. -/
theorem reaches_of_opensAll (h : ∀ m ∈ n.nodes, m.opensAll = true) (hm : m ∈ n.nodes) :
    Reaches (Dropped source) n m := by
  induction n using induction_children with
  | step n ih =>
    rw [nodes_eq, List.mem_cons] at hm
    rcases hm with rfl | hm
    · exact .self _
    obtain ⟨c, hc, hm⟩ := mem_nodesAll.mp hm
    have hbelow (l : Concrete μ) (hl : l ∈ c.nodes) : l ∈ n.nodes :=
      mem_nodes_of_mem_descendants (mem_nodesAll.mpr ⟨c, hc, hl⟩)
    have hopen := h n (mem_nodes_self n)
    rw [opensAll, Bool.or_eq_true, List.isEmpty_iff, Bool.and_eq_true, Bool.not_eq_true'] at hopen
    rcases hopen with hnone | ⟨hshows, hopaque⟩
    · rw [hnone] at hc
      cases hc
    · refine .child hopaque hc (fun hdropped => ?_) (ih c hc (fun l hl => h l (hbelow l hl)) hm)
      exact not_hidden_of_hidesNothing n c hshows hdropped.1

end Concrete

/-! ## Places in a text -/

namespace Text

@[simp] theorem byteSize_append (u v : Text) : byteSize (u ++ v) = byteSize u + byteSize v := by
  induction u with
  | nil => simp [byteSize]
  | cons c u ih =>
    simp only [byteSize, List.cons_append, List.foldr_cons] at ih ⊢
    omega

theorem dropBytes_append (u v : Text) : dropBytes (byteSize u) (u ++ v) = v := by
  induction u with
  | nil => cases v <;> rfl
  | cons c u ih =>
    have hsize : byteSize (c :: u) = c.utf8Size + byteSize u := rfl
    have hpos := c.utf8Size_pos
    rw [List.cons_append, dropBytes, if_neg (by omega), hsize, Nat.add_sub_cancel_left, ih]

theorem takeBytes_append (u v : Text) : takeBytes (byteSize u) (u ++ v) = u := by
  induction u with
  | nil => cases v <;> rfl
  | cons c u ih =>
    have hsize : byteSize (c :: u) = c.utf8Size + byteSize u := rfl
    have hpos := c.utf8Size_pos
    rw [List.cons_append, takeBytes, if_neg (by omega), hsize, Nat.add_sub_cancel_left, ih]

/-- A text agrees with another one letter by letter, up to the letter case that patterns see. -/
abbrev Agrees (name found : Text) : Prop :=
  List.Forall₂ (fun k c => sameFolded k c = true) name found

/-- The letters beyond ASCII that agree with an ASCII letter, but have another lower case. -/
def isForeign (c : Char) : Bool := isFoldedExtra c && c.toNat != 0x212A

/-- A letter that agrees with an ASCII letter has the same lower case, unless it is foreign. -/
theorem lowerBetween_of_sameFolded {k c : Char} (hk : k.toNat < 128) (h : sameFolded k c = true)
    (hforeign : isForeign c = false) (before after : Text) :
    lowerBetween before c after = [k.toLower] := by
  rcases sameFolded_cases hk h with ⟨hc, hlower⟩ | ⟨hextra, -⟩
  · rw [lowerBetween, if_pos hc, hlower]
  · -- The only letter that is left is the Kelvin sign.
    rw [isForeign, hextra, Bool.true_and, bne_eq_false_iff_eq] at hforeign
    have hsign : lowerChar c = 'k' := by
      rw [Char.toNat_inj.mp (show c.toNat = (Char.ofNat 0x212A).toNat from hforeign)]
      decide
    have hlower : k.toLower = 'k' := by
      simp only [sameFolded, hsign, lowerChar_of_ascii hk, Bool.or_eq_true, beq_iff_eq,
        List.contains_iff_mem] at h
      rcases h with h | h
      · exact h
      · rcases sameLetters_ascii (toNat_toLower_lt hk) h with ⟨himage, -⟩ | ⟨himage, -⟩
        · cases himage
        · cases himage
    rw [lowerBetween, hforeign, if_neg (by decide), if_neg (by decide), if_neg (by decide), hsign,
      hlower]

/-- A spelling of an ASCII name without foreign letters is the name up to letter case. -/
theorem lower_eq_of_agrees {name found : Text} (hname : IsAscii name) (h : Agrees name found)
    (hforeign : ∀ c ∈ found, isForeign c = false) : lower found = lower name := by
  have hfrom (before : Text) : lowerFrom before found = name.map Char.toLower := by
    induction h generalizing before with
    | nil => rfl
    | @cons k c name found hc _ ih =>
      rw [IsAscii, List.forall_mem_cons] at hname
      rw [List.forall_mem_cons] at hforeign
      rw [lowerFrom, lowerBetween_of_sameFolded hname.1 hc hforeign.1, ih hname.2 hforeign.2]
      rfl
  rw [lower, hfrom, lower_of_ascii hname]

end Text

theorem eq_or_mem_of_behind {before : Option Char} {text : Text} {c : Char}
    (h : behind before text = some c) : before = some c ∨ c ∈ text := by
  induction text generalizing before with
  | nil => exact .inl h
  | cons d text ih =>
    rcases ih h with hd | hc
    · exact .inr (by simp [Option.some.inj hd])
    · exact .inr (List.mem_cons_of_mem _ hc)

/-- The tree of a text is that of its nodes. -/
theorem Concrete.toTree_of_ofText {text : Text} {tree : Tree}
    (h : Tree.ofText tools text = some tree) : tree = (tools.parse text).toTree text := by
  rw [Tree.ofText] at h
  split at h
  · cases h
  · rw [convert_numbered, Option.some.injEq] at h
    exact h.symm

namespace Imports

open Pattern Grammar Concrete

/-- The words that begin the declaration of a type. -/
def headWords : List Text := ["class", "interface", "trait", "enum"].map String.toList

/-- A place where the declaration of a name is found in a text. -/
structure DeclarationAt (name text : Text) where
  before : Text
  head : Text
  blanks : Text
  found : Text
  after : Text
  text_eq : text = before ++ (head ++ (blanks ++ (found ++ after)))
  isHead : ∃ word ∈ headWords, Text.Agrees word head
  isGap : blanks ≠ [] ∧ ∀ c ∈ blanks, Text.isBlank c = true
  agrees : Text.Agrees name found
  begins : Place.atWordEdge ⟨behind none before, head ++ (blanks ++ (found ++ after))⟩ = true
  ends : Place.atWordEdge ⟨behind none (before ++ (head ++ (blanks ++ found))), after⟩ = true

variable {name text : Text}

/-- A text declares a name just if the declaration is found at some place. -/
theorem isDeclared_iff : isDeclared name text = true ↔ Nonempty (DeclarationAt name text) := by
  have hheads (head : Text) : (∃ word ∈ headWords, Text.Agrees word head) ↔
      Text.Agrees "class".toList head ∨ Text.Agrees "interface".toList head ∨
        Text.Agrees "trait".toList head ∨ Text.Agrees "enum".toList head := by
    simp only [headWords, List.map_cons, List.map_nil, List.mem_cons, List.not_mem_nil, or_false,
      exists_eq_or_imp, exists_eq_left]
  rw [isDeclared, occursIn_iff, declarationOf]
  simp only [covers_all_cons, gap, covers_oneOrMore, covers_folded, Covers, ← hheads]
  constructor
  · rintro ⟨before, _, after, rfl, _, _, rfl, ⟨rfl, hbegins⟩, head, _, rfl, hhead, blanks, _, rfl,
      hgap, found, _, rfl, hfound, _, _, rfl, ⟨rfl, hends⟩, hlast⟩
    obtain rfl : _ = [] := hlast
    refine ⟨⟨before, head, blanks, found, after, by simp, hhead, hgap, hfound, ?_, ?_⟩⟩
    · simpa using hbegins
    · simpa [behind_append] using hends
  · rintro ⟨before, head, blanks, found, after, rfl, hhead, hgap, hfound, hbegins, hends⟩
    refine ⟨before, head ++ (blanks ++ found), after, by simp, [], _, rfl, ⟨rfl, ?_⟩, head, _, rfl,
      hhead, blanks, _, rfl, hgap, found, [], by simp, hfound, [], [], rfl, ⟨rfl, ?_⟩, rfl⟩
    · simpa using hbegins
    · simpa [behind_append] using hends

/-- The tree of a text has the declaration of a class with a given name, up to letter case. -/
def DeclaresClass (tools : Tools) (name text : Text) : Prop :=
  ∃ tree declaration spelling, Tree.ofText tools text = some tree ∧
    Tree.Within (.classDecl declaration) tree ∧ declaration.name = some spelling ∧
      sameName spelling name = true

namespace DeclarationAt

/-- Where the name that is found begins. -/
def start (d : DeclarationAt name text) : Nat := Text.byteSize (d.before ++ d.head ++ d.blanks)

/-- Where the name that is found ends. -/
def stop (d : DeclarationAt name text) : Nat :=
  Text.byteSize (d.before ++ d.head ++ d.blanks ++ d.found)

/-- A node declares a type with the name that is found, at this place. -/
def NamedBy (d : DeclarationAt name text) (n : Concrete Unit) : Prop :=
  Shape.ofKind? n.kind = some .declaration ∧
    ∃ named, n.childAt? "name" = some named ∧ named.start = d.start ∧ named.stop = d.stop

/-- What is found at a place is read as a free word right behind a head. -/
structure ReadAs (tokens : List Token) (d : DeclarationAt name text) (head word : Token) : Prop where
  successive : [head, word] <:+: tokens
  isHead : head.lexeme.isHead = true
  isFree : word.lexeme.isFree = true
  start_word : word.start = d.start
  stop_word : word.stop = d.stop

/-- What a place where a declaration is found can be instead of one that stands in the tree, where
the text is taken for some tokens. -/
inductive Misread (root : Concrete Unit) (tokens : List Token) (d : DeclarationAt name text) :
    Prop where
  /-- Not two words of the program, and no declaration of the tree: a comment, a string, a text
  outside of the program, a part of a longer word, or a word such as `extends` that goes on with
  what stands before it. -/
  | unread (h : ∀ head word, ¬ d.ReadAs tokens head word) (hnone : ∀ n ∈ root.nodes, ¬ d.NamedBy n)
  /-- A part of an import, of the use of a trait or of an attribute. -/
  | passedOver {head word : Token} (h : d.ReadAs tokens head word) {n : Concrete Unit}
      (hn : n ∈ root.nodes) (hkind : isPassedOver n.kind = true) (hstart : n.start ≤ head.start)
      (hstop : word.stop ≤ n.stop)
  /-- The type and the name of a constant. -/
  | typedConstant {head word : Token} (h : d.ReadAs tokens head word)
      {n element constant : Concrete Unit} (hn : n ∈ root.nodes) (hkind : n.kind = "const_declaration")
      (htype : (n.childAt? "type").isSome = true) (helement : element ∈ n.children)
      (hconstant : element.children.head? = some constant) (hspans : Spans constant word)
  /-- A declaration that the conversion drops. -/
  | dropped {n : Concrete Unit} (hn : n ∈ root.nodes) (hnamed : d.NamedBy n)
      (hdropped : ¬ Reaches (Dropped text) root n)
  /-- A name with a letter that only the pattern takes for one of the given name. -/
  | foreign {c : Char} (hc : c ∈ d.found) (hforeign : Text.isForeign c = true)

/-- The text between the ends of the name that is found. -/
theorem text_of_range (d : DeclarationAt name text) {n : Concrete Unit} (hstart : n.start = d.start)
    (hstop : n.stop = d.stop) : n.text text = d.found := by
  have hsplit : text = d.before ++ d.head ++ d.blanks ++ (d.found ++ d.after) := by
    simpa using d.text_eq
  have hlength : n.stop - n.start = Text.byteSize d.found := by
    rw [hstart, hstop, stop, start, Text.byteSize_append _ d.found, Nat.add_sub_cancel_left]
  have hdrop : Text.dropBytes n.start text = d.found ++ d.after := by
    rw [hstart]
    exact (congrArg _ hsplit).trans (Text.dropBytes_append _ _)
  rw [Concrete.text, hlength, hdrop, Text.takeBytes_append]

/-- A text with a declaration is not blank. -/
theorem isBlankText_eq_false (d : DeclarationAt name text) : Text.isBlankText text = false := by
  rw [Text.isBlankText, List.isEmpty_eq_false_iff, Ne, Text.strip_eq_nil_iff]
  intro hblank
  have hplain (c : Char) (hc : c ∈ text) : Text.isWord c = false :=
    isWord_eq_false_of_isBlank (hblank c hc)
  have hrest : ((d.head ++ (d.blanks ++ (d.found ++ d.after))).head?.any Text.isWord) = false := by
    rw [Option.any_eq_false]
    intro c hc
    simp [hplain c (d.text_eq ▸ List.mem_append_right _ (List.mem_of_mem_head? hc))]
  have hbefore : (behind none d.before).any Text.isWord = false := by
    rw [Option.any_eq_false]
    intro c hc
    rcases eq_or_mem_of_behind hc with h | h
    · cases h
    · simp [hplain c (d.text_eq ▸ List.mem_append_left _ h)]
  have hedge := d.begins
  rw [Place.atWordEdge, hrest, hbefore] at hedge
  cases hedge

/-- A place with the name of a declaration that is not dropped. -/
theorem declaresClass_of_reaches (d : DeclarationAt name text)
    (hgrammar : FollowsGrammar (tools.parse text)) (hascii : Text.IsAscii name) (hname : name ≠ [])
    {n : Concrete Unit} (hnamed : d.NamedBy n) (hreach : Reaches (Dropped text) (tools.parse text) n)
    (hforeign : ∀ c ∈ d.found, Text.isForeign c = false) : DeclaresClass tools name text := by
  obtain ⟨hkind, named, hat, hstart, hstop⟩ := hnamed
  have hfound : d.found ≠ [] := by
    intro hnil
    exact hname (List.forall₂_nil_right_iff.mp (hnil ▸ d.agrees))
  have hchildren : n.children ≠ [] := List.ne_nil_of_mem (mem_children_of_childAt? hat)
  have hwithin := hgrammar.sound.within_toTree hreach hkind hchildren
  rw [toTree_of_shape hkind, shaped] at hwithin
  refine ⟨(tools.parse text).toTree text, _, d.found, ?_, hwithin, ?_, ?_⟩
  · rw [Tree.ofText, d.isBlankText_eq_false]
    simp [convert_numbered]
  · rw [name_classOf, hat, declaredName?, Option.map_some, d.text_of_range hstart hstop]
    simp [hfound]
  · rw [sameName, Text.lower_eq_of_agrees hascii d.agrees hforeign]
    exact beq_self_eq_true _

end DeclarationAt

/-- Where the declaration of an ASCII name is found in a text, it is misread, or the tree of the
text has the declaration of a class with this name. -/
theorem declaresClass_of_isDeclared {tokens : List Token}
    (hgrammar : FollowsGrammar (tools.parse text)) (haccounts : AccountsFor (tools.parse text) tokens)
    (hascii : Text.IsAscii name) (hname : name ≠ []) (h : isDeclared name text = true) :
    Nonempty (DeclarationAt name text) ∧ ∀ d : DeclarationAt name text,
      d.Misread (tools.parse text) tokens ∨ DeclaresClass tools name text := by
  refine ⟨isDeclared_iff.mp h, fun d => ?_⟩
  by_cases hforeign : ∀ c ∈ d.found, Text.isForeign c = false
  · by_cases hnamed : ∃ n ∈ (tools.parse text).nodes, d.NamedBy n
    · obtain ⟨n, hn, hnamed⟩ := hnamed
      by_cases hreach : Reaches (Dropped text) (tools.parse text) n
      · exact .inr (d.declaresClass_of_reaches hgrammar hascii hname hnamed hreach hforeign)
      · exact .inl (.dropped hn hnamed hreach)
    · have hnone : ∀ n ∈ (tools.parse text).nodes, ¬ d.NamedBy n := fun n hn hd => hnamed ⟨n, hn, hd⟩
      by_cases hread : ∃ head word, d.ReadAs tokens head word
      · obtain ⟨head, word, hread⟩ := hread
        obtain ⟨n, hn, hexplains⟩ := haccounts head word hread.successive hread.isHead hread.isFree
        cases hexplains with
        | @declared hkind named hat hspans =>
          have hstart : named.start = d.start := hspans.1.trans hread.start_word
          have hstop : named.stop = d.stop := hspans.2.trans hread.stop_word
          exact absurd ⟨hkind, named, hat, hstart, hstop⟩ (hnone n hn)
        | passedOver hkind hstart hstop => exact .inl (.passedOver hread hn hkind hstart hstop)
        | typedConstant hkind htype helement hconstant hspans =>
          exact .inl (.typedConstant hread hn hkind htype helement hconstant hspans)
      · push Not at hread
        exact .inl (.unread hread hnone)
  · push Not at hforeign
    obtain ⟨c, hc, hextra⟩ := hforeign
    exact .inl (.foreign hc (by simpa using hextra))

/-- The place of a class in a small text. -/
def classOfPage : DeclarationAt "Bar".toList "<?php class Bar {}".toList where
  before := "<?php ".toList
  head := "class".toList
  blanks := " ".toList
  found := "Bar".toList
  after := " {}".toList
  text_eq := rfl
  isHead := ⟨"class".toList, by decide, by decide⟩
  isGap := ⟨by decide, List.forall_mem_singleton.mpr rfl⟩
  agrees := by decide
  begins := by decide
  ends := by decide

theorem declaresClass_classOfPage :
    DeclaresClass .standard "Bar".toList "<?php class Bar {}".toList := by
  have hnodes : (parse? "<?php class Bar {}".toList).map (fun root => root.nodes.all fun n =>
      n.opensAll && !isPassedOver n.kind && n.kind != "const_declaration") = some true := by
    decide +kernel
  have hread : classOfPage.ReadAs (Token.scan "<?php class Bar {}".toList)
      ⟨.word "class".toList (some .class_), 6, 11⟩ ⟨.word "Bar".toList none, 12, 15⟩ :=
    ⟨by decide +kernel, rfl, rfl, rfl, rfl⟩
  obtain ⟨root, hparse, hnodes⟩ := Option.map_eq_some_iff.mp hnodes
  simp only [List.all_eq_true, Bool.and_eq_true, Bool.not_eq_true', bne_iff_ne] at hnodes
  have htools : Tools.standard.parse "<?php class Bar {}".toList = root :=
    Tools.parse_standard hparse
  have hascii : Text.IsAscii "Bar".toList := by simp [Text.IsAscii]
  have haccounts : AccountsFor (Tools.standard.parse "<?php class Bar {}".toList)
      (Token.scan "<?php class Bar {}".toList) := htools ▸ accountsFor_of_parse? hparse
  have hplaces := (declaresClass_of_isDeclared (follows_standard _) haccounts hascii (by decide)
    (by decide +kernel)).2
  refine (hplaces classOfPage).resolve_left fun hmisread => ?_
  rw [htools] at hmisread
  cases hmisread with
  | unread h => exact h _ _ hread
  | passedOver _ hn hkind => simp [(hnodes _ hn).1.2] at hkind
  | typedConstant _ hn hkind => exact (hnodes _ hn).2 hkind
  | dropped hn _ hdropped =>
    exact hdropped (reaches_of_opensAll (fun n hn => (hnodes n hn).1.1) hn)
  | foreign hc hforeign =>
    have hany : classOfPage.found.any Text.isForeign = true :=
      List.any_eq_true.mpr ⟨_, hc, hforeign⟩
    exact absurd hany (by decide)

/-- A declaration is also found in a comment, where the tree has none. -/
theorem not_forall_declaresClass : ¬ ∀ (name text : Text), Text.IsAscii name →
    name.head?.any isNameStart = true → name.all isNameChar = true →
      (parse? text).isSome = true → isDeclared name text = true →
        DeclaresClass .standard name text := by
  intro hall
  have hplain : (parse? "<?php // class Bar\n".toList).map (fun root => root.nodes.all fun n =>
      (Shape.ofKind? n.kind).isNone) = some true := by decide +kernel
  have hdeclared : isDeclared "Bar".toList "<?php // class Bar\n".toList = true := by decide +kernel
  generalize "<?php // class Bar\n".toList = text at hplain hdeclared
  obtain ⟨root, hparse, hplain⟩ := Option.map_eq_some_iff.mp hplain
  simp only [List.all_eq_true, Option.isNone_iff_eq_none] at hplain
  have htools : Tools.standard.parse text = root := Tools.parse_standard hparse
  have hascii : Text.IsAscii "Bar".toList := by simp [Text.IsAscii]
  obtain ⟨tree, declaration, spelling, htree, hwithin, -⟩ :=
    hall "Bar".toList text hascii (by decide) (by decide) (by simp [hparse]) hdeclared
  rw [toTree_of_ofText htree, htools] at hwithin
  exact (isPlain_of_nodes hplain).silent _ (Tree.rises_within declaration) hwithin

end Imports

end Namespacer
