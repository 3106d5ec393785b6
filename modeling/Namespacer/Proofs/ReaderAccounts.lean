import Namespacer.Proofs.NodeShapes
import Namespacer.Proofs.ReaderResults

/-!
# What readers make of the words that begin a declaration

The words `class`, `interface`, `trait` and `enum` begin the declaration of a type, but they are
names in other places. Two words of the program text are a suspect pair if the first is such a
head and the second is free, that is, does not go on with what stands before it. `Explains` says
what a node of the tree can make of a suspect pair: it declares a type with the second word as its
name, it is passed over as a whole, or it declares a constant with a type.

A reader accounts for the suspect pairs that it passes if the nodes that it builds explain them
all. Whether a pair is suspect is seen only when its second word is taken, which may be the work
of another reader. So a reader is given a condition on the gap between two tokens where it begins,
and promises one on the gap where it ends.

* `Passes`: a way between two gaps on which every suspect pair is explained.
* `Reader.Accounts`: a reader that accounts for what it passes.
* `Reader.Accounts.bind`, `Reader.Accounts.ask`: readers one after another.
* `Reader.accounts_covering`: a node that is passed over explains whatever it covers.
-/

namespace Namespacer.Grammar

open Concrete

/-! ## Suspect pairs -/

/-- Whether a keyword begins the declaration of a type. -/
def Keyword.isHead : Keyword → Bool
  | .class_ | .interface_ | .trait_ | .enum_ => true
  | _ => false

/-- Whether a keyword goes on with what stands before it. -/
def Keyword.isJoining : Keyword → Bool
  | .and_ | .as_ | .extends_ | .implements_ | .instanceof_ | .or_ | .xor_ => true
  | _ => false

namespace Lexeme

/-- The keyword that a lexeme can be. -/
def keyword? : Lexeme → Option Keyword
  | .word _ keyword => keyword
  | _ => none

/-- The lower-case spelling of a lexeme that is a word. -/
def spelling : Lexeme → Text
  | .word text _ => text.map Char.toLower
  | _ => []

/-- A lexeme that is a word has the keyword that it spells. -/
def IsKeyed : Lexeme → Prop
  | .word text keyword => keyword = Keyword.ofWord? text
  | _ => True

/-- Whether a lexeme is a word that can begin the declaration of a type. -/
def isHead : Lexeme → Bool
  | .word _ keyword => keyword.any Keyword.isHead
  | _ => false

/-- Whether a lexeme is a word that does not go on with what stands before it. -/
def isFree : Lexeme → Bool
  | .word _ keyword => !keyword.any Keyword.isJoining
  | _ => false

end Lexeme

/-- The kinds of nodes into which nothing looks, whatever tokens they cover. -/
def isPassedOver : String → Bool
  | "attribute_list" | "namespace_use_declaration" | "use_declaration" => true
  | _ => false

/-- Whether a node covers exactly a token. -/
def Spans (n : Node) (token : Token) : Prop := n.start = token.start ∧ n.stop = token.stop

/-- What a node can make of a head and the free word behind it. -/
inductive Explains (head word : Token) (n : Node) : Prop where
  /-- The node declares a type with the word as its name. -/
  | declared (hkind : Shape.ofKind? n.kind = some .declaration) {name : Node}
      (hname : n.childAt? "name" = some name) (hspans : Spans name word)
  /-- The node covers both words, and nothing looks into it. -/
  | passedOver (hkind : isPassedOver n.kind = true) (hstart : n.start ≤ head.start)
      (hstop : word.stop ≤ n.stop)
  /-- The node declares constants with a type, one of them with the word as its name. -/
  | typedConstant (hkind : n.kind = "const_declaration") (htype : (n.childAt? "type").isSome = true)
      {element name : Node} (helement : element ∈ n.children)
      (hname : element.children.head? = some name) (hspans : Spans name word)

/-- A tree accounts for the tokens of a text if its nodes explain every suspect pair of them. -/
def AccountsFor (root : Node) (tokens : List Token) : Prop :=
  ∀ head word, [head, word] <:+: tokens → head.lexeme.isHead = true →
    word.lexeme.isFree = true → ∃ n ∈ root.nodes, Explains head word n

/-- A node explains a suspect pair, or a node below it does. The elements of an array do not
count themselves, since they are dropped where the array is assigned to. -/
inductive Tells (head word : Token) : Node → Prop where
  | here {n : Node} (h : Explains head word n) : Tells head word n
  | child {n c : Node} (hn : n.kind ≠ "array_creation_expression") (hc : c ∈ n.children)
      (h : Tells head word c) : Tells head word n
  | element {n c d : Node} (hn : n.kind = "array_creation_expression") (hc : c ∈ n.children)
      (hd : d ∈ c.children) (h : Tells head word d) : Tells head word n

/-- An account of suspect pairs: which of them are explained. -/
abbrev Account := Token → Token → Prop

namespace Account

variable {α : Type}

/-- What one of some parts tells. -/
def ofAny (told : α → Account) (parts : List α) : Account :=
  fun head word => ∃ part ∈ parts, told part head word

/-- What a node tells. -/
def ofNode (n : Node) : Account := fun head word => Tells head word n

/-- What one of some nodes tells. -/
abbrev ofNodes : List Node → Account := ofAny ofNode

/-- Nothing is told. -/
def nothing (_ : α) : Account := fun _ _ => False

/-- Everything is told. -/
def everything (_ : α) : Account := fun _ _ => True

/-- What is told by one of two accounts. -/
def or (known other : Account) : Account := fun head word => known head word ∨ other head word

/-- All that is told by one account is told by another. -/
def Covers (told known : Account) : Prop := ∀ head word, known head word → told head word

variable {head word : Token} {told : α → Account} {part : α} {parts others : List α}

@[simp] theorem ofAny_nil : ofAny told [] head word ↔ False := by simp [ofAny]

@[simp] theorem ofAny_cons :
    ofAny told (part :: parts) head word ↔ told part head word ∨ ofAny told parts head word := by
  simp [ofAny]

@[simp] theorem ofAny_append :
    ofAny told (parts ++ others) head word ↔
      ofAny told parts head word ∨ ofAny told others head word := by
  simp [ofAny, or_and_right, exists_or]

@[simp] theorem ofAny_flatten {groups : List (List α)} :
    ofAny told groups.flatten head word ↔ ofAny (ofAny told) groups head word := by
  induction groups with
  | nil => simp
  | cons group groups ih => simp [ih]

@[simp] theorem nothing_iff : nothing part head word ↔ False := Iff.rfl

@[simp] theorem everything_iff : everything part head word ↔ True := Iff.rfl

@[simp] theorem ofAny_nothing : ofAny nothing parts head word ↔ False := by simp [ofAny]

@[simp] theorem or_iff {known other : Account} :
    known.or other head word ↔ known head word ∨ other head word := Iff.rfl

theorem covers_refl (known : Account) : Covers known known := fun _ _ h => h

theorem covers_nothing (known : Account) : Covers known (nothing ()) := fun _ _ h => h.elim

end Account

open Account

section Nodes

variable {head word : Token} {n m : Node}

theorem Explains.congr (h : Explains head word n) (hkind : n.kind = m.kind)
    (hstart : n.start = m.start) (hstop : n.stop = m.stop) (hchildren : n.children = m.children) :
    Explains head word m := by
  have hat (field : String) : n.childAt? field = m.childAt? field := by
    rw [childAt?, childAt?, hchildren]
  cases h with
  | declared hshape hname hspans => exact .declared (hkind ▸ hshape) (hat _ ▸ hname) hspans
  | passedOver hpassed hbefore hbehind =>
    exact .passedOver (hkind ▸ hpassed) (hstart ▸ hbefore) (hstop ▸ hbehind)
  | typedConstant hconst htype helement hname hspans =>
    exact .typedConstant (hkind ▸ hconst) (hat _ ▸ htype) (hchildren ▸ helement) hname hspans

/-- What a node tells does not depend on what it is to its parent. -/
theorem Tells.congr (h : Tells head word n) (hkind : n.kind = m.kind)
    (hstart : n.start = m.start) (hstop : n.stop = m.stop) (hchildren : n.children = m.children) :
    Tells head word m := by
  cases h with
  | here h => exact .here (h.congr hkind hstart hstop hchildren)
  | child hn hc h => exact .child (hkind ▸ hn) (hchildren ▸ hc) h
  | element hn hc hd h => exact .element (hkind ▸ hn) (hchildren ▸ hc) hd h

@[simp] theorem start_withField (field : String) : (n.withField field).start = n.start := by
  cases n
  rfl

@[simp] theorem stop_withField (field : String) : (n.withField field).stop = n.stop := by
  cases n
  rfl

@[simp] theorem ofNode_withField (field : String) :
    ofNode (n.withField field) head word ↔ ofNode n head word :=
  ⟨fun h => h.congr (by simp) (by simp) (by simp) (by simp),
    fun h => h.congr (by simp) (by simp) (by simp) (by simp)⟩

theorem covers_withField (n : Node) (field : String) :
    Covers (ofNode (n.withField field)) (ofNode n) :=
  fun _ _ => (ofNode_withField field).mpr

/-- A node tells what its children tell. -/
theorem ofNode_of_children (hn : n.kind ≠ "array_creation_expression")
    (h : ofNodes n.children head word) : ofNode n head word := by
  obtain ⟨c, hc, h⟩ := h
  exact .child hn hc h

end Nodes

/-! ## Gaps and ways -/

/-- A gap between two tokens: the token before it, if there is one, and the tokens behind it. -/
structure Gap where
  before : Option Token
  tokens : List Token

/-- The first lexeme of some tokens. -/
def firstLexeme? (tokens : List Token) : Option Lexeme := tokens.head?.map (·.lexeme)

namespace Gap

/-- The lexeme behind a gap. -/
def next? (gap : Gap) : Option Lexeme := firstLexeme? gap.tokens

/-- The keyword behind a gap. -/
def keyword? (gap : Gap) : Option Keyword := gap.next?.bind Lexeme.keyword?

/-- The lower-case spelling of the word behind a gap. -/
def spelling (gap : Gap) : Text := (gap.next?.map Lexeme.spelling).getD []

/-- Any gap at all. -/
def Anywhere (_ : Gap) : Prop := True

/-- No suspect pair stands around a gap. -/
def Quiet (gap : Gap) : Prop :=
  ∀ head ∈ gap.before, head.lexeme.isHead = true → ∀ next ∈ gap.next?, next.isFree = false

theorem quiet_of_next {gap : Gap} {lexeme : Lexeme} (h : gap.next? = some lexeme)
    (hfree : lexeme.isFree = false) : gap.Quiet := by
  intro head _ _ next hnext
  rw [h, Option.mem_some_iff] at hnext
  rw [← hnext, hfree]

theorem quiet_of_none {gap : Gap} (h : gap.next? = none) : gap.Quiet := by
  intro head _ _ next hnext
  rw [h] at hnext
  cases hnext

theorem quiet_of_symbol {gap : Gap} {symbol : Symbol} (h : gap.next? = some (.symbol symbol)) :
    gap.Quiet :=
  quiet_of_next h rfl

theorem quiet_of_not_isHead {token : Token} (h : token.lexeme.isHead = false)
    (tokens : List Token) : Quiet ⟨some token, tokens⟩ := by
  intro head hhead hishead
  rw [Option.mem_some_iff] at hhead
  rw [← hhead, h] at hishead
  cases hishead

theorem lexeme_of_keyword? {gap : Gap} {word : Keyword} (h : gap.keyword? = some word) :
    ∃ text, gap.next? = some (.word text (some word)) := by
  obtain ⟨lexeme, hnext, hkeyword⟩ := Option.bind_eq_some_iff.mp h
  cases lexeme with
  | word text keyword =>
    cases hkeyword
    exact ⟨text, hnext⟩
  | _ => cases hkeyword

theorem quiet_of_isJoining {gap : Gap} {word : Keyword} (h : gap.keyword? = some word)
    (hword : word.isJoining = true) : gap.Quiet := by
  obtain ⟨text, hnext⟩ := lexeme_of_keyword? h
  exact quiet_of_next hnext (by simp [Lexeme.isFree, hword])

end Gap

open Gap

/-- Tokens as they are found in a text: one after another, and words with their keywords. -/
structure InOrder (tokens : List Token) : Prop where
  apart : tokens.Pairwise fun a b => a.stop ≤ b.start
  start_le_stop : ∀ token ∈ tokens, token.start ≤ token.stop
  isKeyed : ∀ token ∈ tokens, token.lexeme.IsKeyed

theorem InOrder.suffix {tokens rest : List Token} (h : InOrder tokens) (hrest : rest <:+ tokens) :
    InOrder rest where
  apart := h.apart.sublist hrest.sublist
  start_le_stop := fun token htoken => h.start_le_stop token (hrest.subset htoken)
  isKeyed := fun token htoken => h.isKeyed token (hrest.subset htoken)

/-- A way from a gap to a later one, on which every suspect pair is explained. -/
inductive Passes (told : Account) : Gap → Gap → Prop where
  | stay (gap : Gap) : Passes told gap gap
  | step {before : Option Token} {token : Token} {tokens : List Token} {last : Gap}
      (h : ∀ head ∈ before, head.lexeme.isHead = true → token.lexeme.isFree = true →
        told head token)
      (hrest : Passes told ⟨some token, tokens⟩ last) : Passes told ⟨before, token :: tokens⟩ last

namespace Passes

variable {told known : Account} {first second third : Gap}

theorem trans (h : Passes told first second) (h' : Passes told second third) :
    Passes told first third := by
  induction h with
  | stay => exact h'
  | step hstep _ ih => exact .step hstep (ih h')

theorem mono (h : Passes known first second) (hcovers : Covers told known) :
    Passes told first second := by
  induction h with
  | stay gap => exact .stay gap
  | step hstep _ ih =>
    exact .step (fun head hhead hishead hfree => hcovers _ _ (hstep head hhead hishead hfree)) ih

theorem suffix (h : Passes told first second) : second.tokens <:+ first.tokens := by
  induction h with
  | stay => exact List.suffix_refl _
  | step _ _ ih => exact ih.trans (List.suffix_cons _ _)

/-- Every suspect pair on a way to the end of all tokens is explained. -/
theorem explains (h : Passes told first second) (hend : second.tokens = []) {head word : Token}
    {u v : List Token} (htokens : first.tokens = u ++ head :: word :: v)
    (hhead : head.lexeme.isHead = true) (hfree : word.lexeme.isFree = true) : told head word := by
  induction h generalizing u with
  | stay =>
    rw [hend] at htokens
    simp at htokens
  | @step before token tokens last hstep hrest ih =>
    cases u with
    | cons _ u =>
      rw [List.cons_append, List.cons.injEq] at htokens
      exact ih hend htokens.2
    | nil =>
      rw [List.nil_append, List.cons.injEq] at htokens
      obtain ⟨rfl, rfl⟩ := htokens
      cases hrest with
      | stay => simp at hend
      | step hnext _ => exact hnext _ rfl hhead hfree

/-- The tokens of a way lie between where it begins and where it ends. -/
theorem covered_of_before {token : Token} {tokens : List Token}
    (h : Passes told ⟨some token, tokens⟩ second) (horder : InOrder (token :: tokens))
    {start stop : Nat} (hstart : start ≤ token.start)
    (hstop : ∀ last ∈ second.before, last.stop ≤ stop) :
    token.stop ≤ stop ∧
      Passes (fun head word => told head word ∧ start ≤ head.start ∧ word.stop ≤ stop)
        ⟨some token, tokens⟩ second := by
  generalize hfirst : (⟨some token, tokens⟩ : Gap) = first at h
  induction h generalizing token tokens with
  | stay =>
    subst hfirst
    exact ⟨hstop token rfl, .stay _⟩
  | @step before next rest last hstep hrest ih =>
    cases hfirst
    have hnext := (List.pairwise_cons.mp horder.apart).1 next List.mem_cons_self
    have hlength := horder.start_le_stop token List.mem_cons_self
    have hlength' := horder.start_le_stop next (List.mem_cons_of_mem _ List.mem_cons_self)
    obtain ⟨hbound, hpasses⟩ := ih (horder.suffix (List.suffix_cons _ _)) (by omega) hstop rfl
    refine ⟨by omega, .step (fun head hhead hishead hfree => ⟨?_, ?_, hbound⟩) hpasses⟩
    · exact hstep head hhead hishead hfree
    · cases hhead
      exact hstart

/-- The suspect pairs of a way lie between where it begins and where it ends. -/
theorem covered (h : Passes told first second) (hquiet : first.Quiet)
    (horder : InOrder first.tokens) {start stop : Nat}
    (hstart : ∀ token ∈ first.tokens.head?, start ≤ token.start)
    (hstop : ∀ last ∈ second.before, last.stop ≤ stop) :
    Passes (fun head word => told head word ∧ start ≤ head.start ∧ word.stop ≤ stop)
      first second := by
  cases h with
  | stay => exact .stay _
  | @step before token tokens last hstep hrest =>
    refine .step (fun head hhead hishead hfree => ?_)
      (hrest.covered_of_before horder (hstart token rfl) hstop).2
    rw [hquiet head hhead hishead _ rfl] at hfree
    cases hfree

end Passes

/-! ## Readers -/

namespace Reader

variable {α β : Type} {told : α → Account} {told' : β → Account} {known : Account}
  {pre mid post : Gap → Prop}

/-- The last token that was taken ends where the input says. -/
def EndsAt (before : Option Token) (last : Nat) : Prop := ∀ token ∈ before, token.stop = last

/-- A reader that begins at a gap with one property and ends at a gap with another, and that
returns what explains every suspect pair on the way and all that is known before. -/
def Accounts (r : Reader α) (told : α → Account) (known : Account) (pre post : Gap → Prop) : Prop :=
  ∀ before input value rest, r.run input = some (value, rest) → InOrder input.tokens →
    EndsAt before input.last → pre ⟨before, input.tokens⟩ → Covers (told value) known ∧
      ∃ after, EndsAt after rest.last ∧
        Passes (told value) ⟨before, input.tokens⟩ ⟨after, rest.tokens⟩ ∧ post ⟨after, rest.tokens⟩

/-- A reader that takes nothing. -/
def Still (r : Reader α) : Prop :=
  ∀ input value rest, r.run input = some (value, rest) → rest = input

namespace Accounts

variable {r : Reader α} {f : α → Reader β}

theorem imp {pre' post' : Gap → Prop} (h : r.Accounts told known pre post)
    (hpre : ∀ gap, pre' gap → pre gap) (hpost : ∀ gap, post gap → post' gap) :
    r.Accounts told known pre' post' := by
  intro before input value rest hrun horder hends hgap
  obtain ⟨hcovers, after, hafter, hpasses, hlast⟩ :=
    h before input value rest hrun horder hends (hpre _ hgap)
  exact ⟨hcovers, after, hafter, hpasses, hpost _ hlast⟩

theorem before {pre' : Gap → Prop} (h : r.Accounts told known pre post)
    (hpre : ∀ gap, pre' gap → pre gap) : r.Accounts told known pre' post :=
  h.imp hpre fun _ hpost => hpost

theorem anywhere (h : r.Accounts told known pre post) : r.Accounts told known pre Anywhere :=
  h.imp (fun _ hpre => hpre) fun _ _ => trivial

theorem mono {wider : α → Account} {less : Account} (h : r.Accounts told known pre post)
    (htold : ∀ value, Covers (wider value) (told value)) (hknown : Covers known less) :
    r.Accounts wider less pre post := by
  intro before input value rest hrun horder hends hgap
  obtain ⟨hcovers, after, hafter, hpasses, hlast⟩ := h before input value rest hrun horder hends hgap
  refine ⟨fun head word h => ?_, after, hafter, hpasses.mono (htold value), hlast⟩
  exact htold value _ _ (hcovers _ _ (hknown _ _ h))

theorem knowing {less : Account} (h : r.Accounts told known pre post) (hknown : Covers known less) :
    r.Accounts told less pre post :=
  h.mono (fun _ => covers_refl _) hknown

/-- The tokens behind a gap are in order. -/
theorem inOrder (h : r.Accounts told known (fun gap => pre gap ∧ InOrder gap.tokens) post) :
    r.Accounts told known pre post := by
  intro before input value rest hrun horder hends hgap
  exact h before input value rest hrun horder hends ⟨hgap, horder⟩

/-- A reader that tells nothing may be taken to tell anything. -/
theorem ofNothing (h : r.Accounts nothing (nothing ()) pre post) :
    r.Accounts told (nothing ()) pre post :=
  h.mono (fun _ _ _ h => h.elim) (covers_refl _)

/-- Readers one after another. What the first tells is known to the second. -/
theorem bindAlso {other : Account} {P : α → Prop} (hr : r.Accounts told other pre mid)
    (hP : r.Ensures P)
    (hf : ∀ value, P value → (f value).Accounts told' (known.or (told value)) mid post) :
    (r >>= f).Accounts told' (known.or other) pre post := by
  intro before input result rest hrun horder hends hgap
  rw [StateT.run_bind] at hrun
  obtain ⟨⟨value, middle⟩, hvalue, hresult⟩ := Option.bind_eq_some_iff.mp hrun
  obtain ⟨hother, between, hbetween, hfirst, hmid⟩ :=
    hr before input value middle hvalue horder hends hgap
  obtain ⟨hcovers, after, hafter, hsecond, hpost⟩ := hf value (hP _ _ _ hvalue) between middle result
    rest hresult (horder.suffix hfirst.suffix) hbetween hmid
  refine ⟨fun head word h => hcovers _ _ (h.imp_right (hother _ _)), after, hafter, ?_, hpost⟩
  exact (hfirst.mono fun head word h => hcovers _ _ (.inr h)).trans hsecond

theorem bindWith {P : α → Prop} (hr : r.Accounts told (nothing ()) pre mid) (hP : r.Ensures P)
    (hf : ∀ value, P value → (f value).Accounts told' (known.or (told value)) mid post) :
    (r >>= f).Accounts told' known pre post :=
  (hr.bindAlso hP hf).knowing fun _ _ h => .inl h

theorem bind (hr : r.Accounts told (nothing ()) pre mid)
    (hf : ∀ value, (f value).Accounts told' (known.or (told value)) mid post) :
    (r >>= f).Accounts told' known pre post :=
  hr.bindWith (P := fun _ => True) (fun _ _ _ _ => trivial) fun value _ => hf value

/-- Readers one after another, where the first tells what is known. -/
theorem bindThrough (hr : r.Accounts told known pre mid)
    (hf : ∀ value, (f value).Accounts told' (told value) mid post) :
    (r >>= f).Accounts told' known pre post := by
  have hbind : (r >>= f).Accounts told' ((nothing ()).or known) pre post :=
    hr.bindAlso (P := fun _ => True) (fun _ _ _ _ => trivial) fun value _ =>
      (hf value).knowing fun _ _ h => by simpa using h
  exact hbind.knowing fun _ _ h => .inr h

/-- A reader that tells nothing, and then another. -/
theorem andThen (hr : r.Accounts nothing (nothing ()) pre mid)
    (hf : ∀ value, (f value).Accounts told' known mid post) :
    (r >>= f).Accounts told' known pre post :=
  hr.bind fun value => (hf value).mono (fun _ => covers_refl _) fun _ _ h => by simpa using h

/-- A reader that only looks, and then another. -/
theorem ask (answer : List Token → α)
    (hr : ∀ input, r.run input = some (answer input.tokens, input))
    (hf : ∀ value, (f value).Accounts told' known
      (fun gap => pre gap ∧ answer gap.tokens = value) post) :
    (r >>= f).Accounts told' known pre post := by
  intro before input result rest hrun horder hends hgap
  rw [StateT.run_bind, hr] at hrun
  exact hf _ before input result rest hrun horder hends ⟨hgap, rfl⟩

/-- A reader that only looks, whatever it sees. -/
theorem look (hr : r.Still) (hf : ∀ value, (f value).Accounts told' known pre post) :
    (r >>= f).Accounts told' known pre post := by
  intro before input result rest hrun horder hends hgap
  rw [StateT.run_bind] at hrun
  obtain ⟨⟨value, middle⟩, hvalue, hresult⟩ := Option.bind_eq_some_iff.mp hrun
  obtain rfl := hr _ _ _ hvalue
  exact hf value before middle result rest hresult horder hends hgap

theorem ite {c : Prop} [Decidable c] {s : Reader α} (hr : c → r.Accounts told known pre post)
    (hs : ¬ c → s.Accounts told known pre post) :
    (if c then r else s).Accounts told known pre post := by
  split
  · exact hr ‹_›
  · exact hs ‹_›

end Accounts

theorem accounts_failure : (failure : Reader α).Accounts told known pre post := by
  intro before input value rest hrun
  cases hrun

theorem accounts_pure {value : α} (hknown : Covers (told value) known) :
    (pure value : Reader α).Accounts told known pre pre := by
  intro before input result rest hrun horder hends hgap
  cases hrun
  exact ⟨hknown, before, hends, .stay _, hgap⟩

theorem accounts_return {value : α} :
    (pure value : Reader α).Accounts nothing (nothing ()) pre pre :=
  accounts_pure (covers_refl _)

/-- What is read, as a list of one. -/
theorem Accounts.single {r : Reader α} (h : r.Accounts told known pre post) :
    (r >>= fun value => pure [value]).Accounts (ofAny told) known pre post :=
  h.bindThrough fun _ => accounts_pure fun _ _ h => by simpa using h

/-- What is read, if something is. -/
theorem Accounts.found {r : Reader α} (h : r.Accounts told known pre post) :
    (r >>= fun value => pure (some value)).Accounts (fun found => ofAny told found.toList) known
      pre post :=
  h.bindThrough fun _ => accounts_pure fun _ _ h => by simpa using h

/-- What is read, as a child. -/
theorem Accounts.asChild {r : Reader Node} (h : r.Accounts ofNode known pre post) (field : String) :
    (r >>= fun n => pure (n.withField field)).Accounts ofNode known pre post :=
  h.bindThrough fun n => accounts_pure (covers_withField n field)

theorem accounts_of_still {r : Reader α} (h : r.Still) : r.Accounts nothing (nothing ()) pre pre := by
  intro before input result rest hrun horder hends hgap
  obtain rfl := h _ _ _ hrun
  exact ⟨covers_refl _, before, hends, .stay _, hgap⟩

/-! ## Readers that take nothing -/

variable {f : α → Reader β} {kind : String} {start : Nat} {children : List Node}

theorem still_pure (value : α) : (pure value : Reader α).Still := by
  intro input result rest hrun
  cases hrun
  rfl

theorem still_failure : (failure : Reader α).Still := by
  intro input result rest hrun
  cases hrun

theorem still_bind {r : Reader α} (hr : r.Still) (hf : ∀ value, (f value).Still) :
    (r >>= f).Still := by
  intro input result rest hrun
  rw [StateT.run_bind] at hrun
  obtain ⟨⟨value, middle⟩, hvalue, hresult⟩ := Option.bind_eq_some_iff.mp hrun
  obtain rfl := hr _ _ _ hvalue
  exact hf value _ _ _ hresult

theorem still_ite {c : Prop} [Decidable c] {r s : Reader α} (hr : r.Still) (hs : s.Still) :
    (if c then r else s).Still := by
  split
  · exact hr
  · exact hs

theorem still_get : (get : Reader Input).Still := by
  intro input result rest hrun
  cases hrun
  rfl

theorem still_peek (skip : Nat) : (peek skip).Still := still_bind still_get fun _ => still_pure _

theorem still_position : position.Still := still_bind still_get fun _ => still_pure _

theorem still_isSymbol (symbol : Symbol) (skip : Nat) : (isSymbol symbol skip).Still :=
  still_bind (still_peek skip) fun _ => still_pure _

theorem still_keyword? (skip : Nat) : (keyword? skip).Still := by
  refine still_bind (still_peek skip) fun next => ?_
  split <;> exact still_pure _

theorem still_isKeyword (keyword : Keyword) (skip : Nat) : (isKeyword keyword skip).Still :=
  still_bind (still_keyword? skip) fun _ => still_pure _

theorem still_isWord (skip : Nat) : (isWord skip).Still := by
  refine still_bind (still_peek skip) fun next => ?_
  split <;> exact still_pure _

theorem still_spelling (skip : Nat) : (spelling skip).Still := by
  refine still_bind (still_peek skip) fun next => ?_
  split <;> exact still_pure _

theorem still_node : (node kind start children).Still := still_bind still_get fun _ => still_pure _

/-! ## Single tokens -/

theorem run_take {input rest : Input} {token : Token} (h : take.run input = some (token, rest)) :
    input.tokens = token :: rest.tokens ∧ rest.last = token.stop := by
  obtain ⟨tokens, last⟩ := input
  cases tokens with
  | nil => cases h
  | cons first tokens =>
    cases h
    exact ⟨rfl, rfl⟩

/-- Taking the next token where it makes no suspect pair that is not told. -/
theorem accounts_take {told : Token → Account}
    (hstep : ∀ before token tokens, pre ⟨before, token :: tokens⟩ → ∀ head ∈ before,
      head.lexeme.isHead = true → token.lexeme.isFree = true → told token head token)
    (hpost : ∀ before token tokens, pre ⟨before, token :: tokens⟩ → post ⟨some token, tokens⟩) :
    take.Accounts told (nothing ()) pre post := by
  intro before input token rest hrun horder hends hgap
  obtain ⟨htokens, hlast⟩ := run_take hrun
  rw [htokens] at hgap ⊢
  refine ⟨covers_nothing _, some token, ?_, .step (hstep _ _ _ hgap) (.stay _), hpost _ _ _ hgap⟩
  intro found hfound
  rw [Option.mem_some_iff] at hfound
  rw [← hfound, hlast]

theorem accounts_take_quiet : take.Accounts nothing (nothing ()) Quiet Anywhere := by
  refine accounts_take (fun before token tokens hquiet head hhead hishead hfree => ?_)
    fun _ _ _ _ => trivial
  rw [hquiet head hhead hishead _ rfl] at hfree
  cases hfree

/-- Taking a token that is neither a head nor free. -/
theorem accounts_take_next {lexeme : Lexeme} (hhead : lexeme.isHead = false)
    (hfree : lexeme.isFree = false) :
    take.Accounts nothing (nothing ()) (fun gap => pre gap ∧ gap.next? = some lexeme) Quiet := by
  refine accounts_take (fun before token tokens h head _ _ hisfree => ?_) fun before token tokens h => ?_
  · have hnext : token.lexeme = lexeme := Option.some.inj h.2
    rw [hnext, hfree] at hisfree
    cases hisfree
  · have hnext : token.lexeme = lexeme := Option.some.inj h.2
    exact quiet_of_not_isHead (hnext ▸ hhead) tokens

theorem accounts_take_symbol {symbol : Symbol} :
    take.Accounts nothing (nothing ()) (fun gap => gap.next? = some (.symbol symbol)) Quiet :=
  (@accounts_take_next Anywhere _ rfl rfl).before fun _ h => ⟨trivial, h⟩

/-- Taking a keyword that is no head. -/
theorem accounts_take_keyword {word : Keyword} (hword : word.isHead = false) :
    take.Accounts nothing (nothing ()) (fun gap => gap.Quiet ∧ gap.keyword? = some word) Quiet := by
  refine accounts_take (fun before token tokens h head hhead hishead hfree => ?_)
    fun before token tokens h => ?_
  · rw [h.1 head hhead hishead _ rfl] at hfree
    cases hfree
  · obtain ⟨text, hnext⟩ := lexeme_of_keyword? h.2
    have hlexeme : token.lexeme = .word text (some word) := Option.some.inj hnext
    exact quiet_of_not_isHead (by rw [hlexeme, Lexeme.isHead, Option.any_some, hword]) tokens

theorem accounts_discard {r : Reader α} (h : r.Accounts nothing (nothing ()) pre post) :
    (discard r).Accounts nothing (nothing ()) pre post := by
  have heq : discard r = r >>= fun _ => pure () := rfl
  rw [heq]
  exact h.andThen fun _ => accounts_return

theorem accounts_leaf (h : take.Accounts nothing (nothing ()) pre post) :
    (leaf kind).Accounts nothing (nothing ()) pre post :=
  h.andThen fun _ => accounts_return

theorem accounts_operator (h : take.Accounts nothing (nothing ()) pre post) :
    (operator kind).Accounts nothing (nothing ()) pre post :=
  h.andThen fun _ => accounts_return

/-- A node that is made of what is known. -/
theorem accounts_node_of {told : Node → Account}
    (hknown : ∀ stop, Covers (told (.node () kind true none start stop children)) known) :
    (node kind start children).Accounts told known pre pre := by
  intro before input result rest hrun horder hends hgap
  cases hrun
  exact ⟨hknown _, before, hends, .stay _, hgap⟩

/-- A node tells what is known, if its children do. -/
theorem accounts_node (hkind : kind ≠ "array_creation_expression")
    (hknown : Covers (ofNodes children) known) :
    (node kind start children).Accounts ofNode known pre pre :=
  accounts_node_of fun _ head word h => ofNode_of_children hkind (hknown head word h)

/-- A node in the middle of a reader. -/
theorem Accounts.nodeAlso (other : Account) {f : Node → Reader β}
    (hkind : kind ≠ "array_creation_expression") (hknown : Covers (other.or (ofNodes children)) known)
    (hf : ∀ n, (f n).Accounts told' (other.or (ofNode n)) pre post) :
    (node kind start children >>= f).Accounts told' known pre post := by
  have hnode : (node kind start children).Accounts ofNode (ofNodes children) pre pre :=
    accounts_node hkind (covers_refl _)
  refine (hnode.bindAlso (P := fun _ => True) (fun _ _ _ _ => trivial) fun n _ => hf n).knowing ?_
  exact hknown

/-- A node with one child. -/
theorem accounts_around {inner : Reader Node} (hkind : kind ≠ "array_creation_expression")
    (h : inner.Accounts ofNode (nothing ()) pre post) :
    (inner >>= fun n => node kind start [n]).Accounts ofNode (nothing ()) pre post :=
  h.bind fun _ => accounts_node hkind fun _ _ h => by simpa using h

/-! ## Branches -/

theorem run_peek (input : Input) : peek.run input = some (firstLexeme? input.tokens, input) := by
  rw [firstLexeme?, List.head?_eq_getElem?]
  rfl

/-- A reader that goes on by what comes next. -/
theorem Accounts.peek {f : Option Lexeme → Reader β} (hf : ∀ next, (f next).Accounts told' known
      (fun gap => pre gap ∧ gap.next? = next) post) :
    (peek >>= f).Accounts told' known pre post :=
  .ask firstLexeme? run_peek hf

theorem run_isSymbol (symbol : Symbol) (input : Input) : (isSymbol symbol).run input =
    some (firstLexeme? input.tokens == some (.symbol symbol), input) := by
  rw [firstLexeme?, List.head?_eq_getElem?]
  rfl

/-- A reader that goes on by whether a symbol comes next. -/
theorem Accounts.ifSymbol {f : Bool → Reader β} {symbol : Symbol}
    (htrue : (f true).Accounts told' known (fun gap => gap.next? = some (.symbol symbol)) post)
    (hfalse : (f false).Accounts told' known pre post) :
    (isSymbol symbol >>= f).Accounts told' known pre post := by
  refine .ask (fun tokens => firstLexeme? tokens == some (.symbol symbol)) (run_isSymbol symbol)
    fun value => ?_
  cases value with
  | true => exact htrue.before fun gap h => beq_iff_eq.mp h.2
  | false => exact hfalse.before fun gap h => h.1

/-- A reader that goes on by whether it takes a symbol. -/
theorem Accounts.ifAccept {f : Bool → Reader β} {symbol : Symbol}
    (htrue : (f true).Accounts told' known Quiet post)
    (hfalse : (f false).Accounts told' known pre post) :
    (accept symbol >>= f).Accounts told' known pre post := by
  rw [accept, bind_assoc]
  refine .ifSymbol ?_ hfalse
  change ((discard take >>= fun _ => pure true) >>= f).Accounts _ _ _ _
  rw [bind_assoc]
  exact (accounts_discard accounts_take_symbol).andThen fun _ => htrue

theorem accounts_accept {mark : Symbol} (hpre : ∀ gap, pre gap → post gap)
    (hquiet : ∀ gap, gap.Quiet → post gap) :
    (accept mark).Accounts nothing (nothing ()) pre post := by
  rw [← bind_pure (accept mark)]
  exact .ifAccept (accounts_return.before hquiet) (accounts_return.before hpre)

variable {next : List Node → Reader β} {item : Reader Node}

/-- A part that is read if a symbol comes next. -/
theorem Accounts.ifSymbolOptional (change : Node → Node) {symbol : Symbol}
    (hitem : item.Accounts ofNode (nothing ()) (fun gap => gap.next? = some (.symbol symbol)) mid)
    (hchange : ∀ n, Covers (ofNode (change n)) (ofNode n)) (hpre : ∀ gap, pre gap → mid gap)
    (hnext : ∀ found, (next found).Accounts told' (known.or (ofNodes found)) mid post) :
    (isSymbol symbol >>= fun found =>
      if found = true then item >>= fun n => pure [change n] >>= next
      else pure [] >>= next).Accounts told' known pre post := by
  refine .ifSymbol (hitem.bind fun n => ?_) ?_
  · refine (hnext [change n]).knowing fun head word h => ?_
    rcases h with h | h
    · exact .inl h
    · exact .inr (ofAny_cons.mpr (.inl (hchange n head word h)))
  · exact ((hnext []).before hpre).knowing fun _ _ h => .inl h

/-- A part that is read behind a symbol that may come next. -/
theorem Accounts.ifAcceptOptional (change : Node → Node) {symbol : Symbol}
    (hitem : item.Accounts ofNode (nothing ()) Quiet mid)
    (hchange : ∀ n, Covers (ofNode (change n)) (ofNode n)) (hpre : ∀ gap, pre gap → mid gap)
    (hnext : ∀ found, (next found).Accounts told' (known.or (ofNodes found)) mid post) :
    (accept symbol >>= fun found =>
      if found = true then item >>= fun n => pure [change n] >>= next
      else pure [] >>= next).Accounts told' known pre post := by
  refine .ifAccept (hitem.bind fun n => ?_) ?_
  · refine (hnext [change n]).knowing fun head word h => ?_
    rcases h with h | h
    · exact .inl h
    · exact .inr (ofAny_cons.mpr (.inl (hchange n head word h)))
  · exact ((hnext []).before hpre).knowing fun _ _ h => .inl h

theorem accounts_symbol {mark : Symbol} : (symbol mark).Accounts nothing (nothing ()) pre Quiet :=
  .ifAccept accounts_return accounts_failure

theorem run_keyword? (input : Input) :
    keyword?.run input = some ((firstLexeme? input.tokens).bind Lexeme.keyword?, input) := by
  rw [keyword?, StateT.run_bind, run_peek, Option.bind_eq_bind, Option.bind_some]
  cases firstLexeme? input.tokens with
  | none => rfl
  | some lexeme => cases lexeme <;> rfl

/-- A reader that goes on by the keyword that comes next. -/
theorem Accounts.keyword? {f : Option Keyword → Reader β}
    (hf : ∀ found, (f found).Accounts told' known
      (fun gap => pre gap ∧ gap.keyword? = found) post) :
    (keyword? >>= f).Accounts told' known pre post :=
  .ask (fun tokens => (firstLexeme? tokens).bind Lexeme.keyword?) run_keyword? hf

/-- A reader that goes on by whether a keyword comes next. -/
theorem Accounts.ifKeyword {f : Bool → Reader β} {word : Keyword}
    (htrue : (f true).Accounts told' known
      (fun gap => pre gap ∧ gap.keyword? = some word) post)
    (hfalse : (f false).Accounts told' known pre post) :
    (isKeyword word >>= f).Accounts told' known pre post := by
  rw [isKeyword, bind_assoc]
  refine .keyword? fun found => ?_
  rw [pure_bind]
  cases hfound : found == some word with
  | true => exact htrue.before fun gap h => ⟨h.1, h.2.trans (beq_iff_eq.mp hfound)⟩
  | false => exact hfalse.before fun gap h => h.1

theorem run_spelling (input : Input) : spelling.run input =
    some (((firstLexeme? input.tokens).map Lexeme.spelling).getD [], input) := by
  rw [spelling, StateT.run_bind, run_peek, Option.bind_eq_bind, Option.bind_some]
  cases firstLexeme? input.tokens with
  | none => rfl
  | some lexeme => cases lexeme <;> rfl

/-- A reader that goes on by the spelling of the word that comes next. -/
theorem Accounts.spelling {f : Text → Reader β}
    (hf : ∀ found, (f found).Accounts told' known
      (fun gap => pre gap ∧ gap.spelling = found) post) :
    (spelling >>= f).Accounts told' known pre post :=
  .ask (fun tokens => ((firstLexeme? tokens).map Lexeme.spelling).getD []) run_spelling hf

/-- A reader that goes on by whether it takes a keyword. -/
theorem Accounts.ifAcceptKeyword {f : Bool → Reader β} {word : Keyword}
    (hword : word.isHead = false) (hpre : ∀ gap, pre gap → gap.keyword? = some word → gap.Quiet)
    (htrue : (f true).Accounts told' known Quiet post)
    (hfalse : (f false).Accounts told' known pre post) :
    (acceptKeyword word >>= f).Accounts told' known pre post := by
  rw [acceptKeyword, bind_assoc]
  refine .ifKeyword ?_ hfalse
  change ((discard take >>= fun _ => pure true) >>= f).Accounts _ _ _ _
  rw [bind_assoc]
  refine (accounts_discard (accounts_take_keyword hword)).before ?_ |>.andThen fun _ => htrue
  exact fun gap h => ⟨hpre gap h.1 h.2, h.2⟩

theorem accounts_keyword {word : Keyword} (hword : word.isHead = false) :
    (keyword word).Accounts nothing (nothing ()) Quiet Quiet :=
  .ifAcceptKeyword hword (fun _ h _ => h) accounts_return accounts_failure

theorem accounts_keyword_joining {word : Keyword} (hword : word.isHead = false)
    (hjoining : word.isJoining = true) : (keyword word).Accounts nothing (nothing ()) pre Quiet :=
  .ifAcceptKeyword hword (fun _ _ h => quiet_of_isJoining h hjoining)
    accounts_return accounts_failure

/-- A keyword that may be a head. -/
theorem accounts_keyword_head {word : Keyword} :
    (keyword word).Accounts nothing (nothing ()) Quiet Anywhere := by
  rw [keyword, acceptKeyword, bind_assoc]
  refine .ifKeyword ?_ accounts_failure
  change ((discard take >>= fun _ => pure true) >>= _).Accounts _ _ _ _
  rw [bind_assoc]
  refine (accounts_discard accounts_take_quiet).before (fun _ h => h.1) |>.andThen fun _ => accounts_return

/-- A word as a name. -/
theorem accounts_name : name.Accounts nothing (nothing ()) Quiet Anywhere :=
  .look (still_isWord 0) fun _ =>
    .ite (fun _ => accounts_leaf accounts_take_quiet) fun _ => accounts_failure

/-! ## Repetitions -/

/-- A reader that is repeated accounts for what its rounds account for. -/
theorem accounts_collect (told : α → Account) {item : Reader (Option α)}
    (hitem : item.Accounts (fun found => ofAny told found.toList) (nothing ()) pre pre) :
    (collect item).Accounts (ofAny told) (nothing ()) pre pre := by
  refine .look still_get fun input => ?_
  generalize input.tokens.length + 1 = rounds
  induction rounds with
  | zero => exact accounts_pure (covers_nothing _)
  | succ rounds ih =>
    refine hitem.bind fun found => ?_
    cases found with
    | none => exact accounts_pure fun _ _ h => by simp at h
    | some first => exact ih.bind fun rest => accounts_pure fun _ _ h => by simpa using h

theorem accounts_collect_nothing {item : Reader (Option α)}
    (hitem : item.Accounts nothing (nothing ()) pre pre) :
    (collect item).Accounts nothing (nothing ()) pre pre := by
  have hcollect := accounts_collect nothing (hitem.mono (fun _ _ _ h => h.elim) (covers_refl _))
  exact hcollect.mono (fun _ _ _ h => by simp at h) (covers_refl _)

/-- A value that is extended as long as possible. -/
theorem accounts_extend {step : α → Reader (Option α)}
    (hstep : ∀ value, (step value).Accounts (fun found => told (found.getD value)) (told value)
      pre pre) (value : α) : (extend step value).Accounts told (told value) pre pre := by
  refine .look still_get fun input => ?_
  generalize input.tokens.length + 1 = rounds
  induction rounds generalizing value with
  | zero => exact accounts_pure (covers_refl _)
  | succ rounds ih =>
    refine (hstep value).bindThrough fun found => ?_
    cases found with
    | none => exact accounts_pure (covers_refl _)
    | some next => exact ih next

/-- Items with commas between them up to a closing symbol. -/
theorem accounts_listUntil (told : α → Account) {close : Symbol} {item : Reader (List α)}
    (hitem : item.Accounts (ofAny told) (nothing ()) Quiet Anywhere) :
    (listUntil close item).Accounts (ofAny told) (nothing ()) Quiet Quiet := by
  have hcollect : (collect do
      if ← isSymbol close then return none
      let found ← item
      unless ← accept .comma do
        unless ← isSymbol close do failure
      return some found).Accounts (ofAny (ofAny told)) (nothing ()) Quiet Quiet := by
    refine accounts_collect _ (.ifSymbol ?_ ?_)
    · exact (accounts_pure (covers_nothing _)).before fun _ h => quiet_of_symbol h
    · refine hitem.bind fun found => .ifAccept ?_ (.ifSymbol ?_ ?_)
      · exact accounts_pure fun _ _ h => by simpa using h
      · exact (accounts_pure fun _ _ h => by simpa using h).before fun _ h => quiet_of_symbol h
      · exact accounts_failure
  refine hcollect.bind fun items => accounts_symbol.andThen fun _ => accounts_pure fun _ _ h => ?_
  simpa using h

/-- Single items with commas between them up to a closing symbol. -/
theorem accounts_listOf {close : Symbol} {item : Reader α}
    (hitem : item.Accounts told (nothing ()) Quiet Anywhere) :
    (listUntil close (item >>= fun found => pure [found])).Accounts (ofAny told) (nothing ())
      Quiet Quiet :=
  accounts_listUntil told hitem.single

/-- One or more items with commas between them. -/
theorem accounts_commaSeparated {item : Reader α} (hitem : item.Accounts told (nothing ()) pre post)
    (hpre : ∀ gap, gap.Quiet → pre gap) :
    (commaSeparated item).Accounts (ofAny told) (nothing ()) pre post := by
  refine hitem.bind fun first => (accounts_collect told (.ifAccept ?_ ?_)).bind fun rest => ?_
  · exact (hitem.before hpre).found
  · exact accounts_pure (covers_nothing _)
  · exact accounts_pure fun _ _ h => by simpa using h

/-! ## Nodes that are passed over -/

/-- A token that is passed over, and then another reader. -/
theorem Accounts.passOver {f : Token → Reader β}
    (hf : ∀ token, (f token).Accounts everything (nothing ()) (fun gap => gap.before = some token)
      post) : (take >>= f).Accounts everything (nothing ()) pre post := by
  intro before input result rest hrun horder hends hgap
  rw [StateT.run_bind] at hrun
  obtain ⟨⟨token, middle⟩, htake, hresult⟩ := Option.bind_eq_some_iff.mp hrun
  obtain ⟨htokens, hlast⟩ := run_take htake
  rw [htokens] at horder
  have hmiddle : EndsAt (some token) middle.last := by
    intro found hfound
    rw [Option.mem_some_iff] at hfound
    rw [← hfound, hlast]
  obtain ⟨-, after, hafter, hpasses, hpost⟩ := hf token (some token) middle result rest hresult
    (horder.suffix (List.suffix_cons _ _)) hmiddle rfl
  rw [htokens]
  exact ⟨covers_nothing _, after, hafter, .step (fun _ _ _ _ => trivial) hpasses, hpost⟩

theorem run_position (input : Input) : ∃ start, position.run input = some (start, input) ∧
    ∀ token ∈ input.tokens.head?, start = token.start := by
  obtain ⟨tokens, last⟩ := input
  cases tokens with
  | nil => exact ⟨last, rfl, by simp⟩
  | cons token tokens => exact ⟨token.start, rfl, by simp⟩

/-- What is told of the pairs between the beginning of a reader and its end. -/
theorem accounts_covering (told : α → Account) {r : Reader α} {f : Nat → α → Reader β}
    (hr : r.Accounts told (nothing ()) pre post) (hpre : ∀ gap, pre gap → gap.Quiet)
    (hf : ∀ start value input result rest, (f start value).run input = some (result, rest) →
      rest = input ∧ ∀ head word, told value head word → start ≤ head.start →
        word.stop ≤ input.last → told' result head word) :
    (position >>= fun start => r >>= f start).Accounts told' (nothing ()) pre post := by
  intro before input result rest hrun horder hends hgap
  obtain ⟨start, hposition, hstart⟩ := run_position input
  rw [StateT.run_bind, hposition, Option.bind_eq_bind, Option.bind_some, StateT.run_bind] at hrun
  obtain ⟨⟨value, middle⟩, hvalue, hresult⟩ := Option.bind_eq_some_iff.mp hrun
  obtain ⟨-, after, hafter, hpasses, hpost⟩ := hr before input value middle hvalue horder hends hgap
  obtain ⟨rfl, htold⟩ := hf start value middle result rest hresult
  refine ⟨covers_nothing _, after, hafter, ?_, hpost⟩
  refine (hpasses.covered (hpre _ hgap) horder (fun token htoken => Nat.le_of_eq (hstart token htoken))
    fun last hlast => Nat.le_of_eq (hafter last hlast)).mono ?_
  exact fun head word h => htold head word h.1 h.2.1 h.2.2

/-- A node that is passed over tells what the pairs that it covers are. -/
theorem ofNode_of_isPassedOver (hkind : isPassedOver kind = true) {field : Option String}
    {stop : Nat} {head word : Token} (hstart : start ≤ head.start) (hstop : word.stop ≤ stop) :
    ofNode (.node () kind true field start stop children) head word :=
  .here (.passedOver hkind hstart hstop)

end Reader

end Namespacer.Grammar
