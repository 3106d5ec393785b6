import Namespacer.Proofs.TypeReaders

/-!
# Expressions follow the grammar

Whatever the readers of expressions build follows the grammar, if what they nest does.
Besides this some readers promise a kind or a field, which the nodes around
them rely on.
-/

namespace Namespacer.Grammar

open Reader
open Concrete

/-- The nested readers build nodes that follow the grammar. -/
structure Nesting.Follows (g : Nesting) : Prop where
  expression (level : Nat) : (g.expression level).Ensures FollowsGrammar
  statement (clauses : Clauses) : (g.statement clauses).Ensures FollowsGrammar
  members : g.members.Ensures fun n => FollowsGrammar n ∧ isMemberListKind n.kind

variable {g : Nesting} {kind : String} {start : Nat}

/-- A node with one child that a reader builds. -/
theorem follows_around {inner : Reader Node} (hkind : Shape.ofKind? kind = none)
    (htext : kind ≠ "text_interpolation") (hinner : inner.Ensures FollowsGrammar) :
    (inner >>= fun n => node kind start [n]).Ensures FollowsGrammar :=
  ensures_bind hinner fun n hn => follows_node hkind htext (by simpa using hn)

theorem designator_node {children : List Node} (hkind : Shape.ofKind? kind = none)
    (htext : kind ≠ "text_interpolation") (hdesignator : kind ≠ "arguments" ∧ kind ≠ "anonymous_class")
    (hchildren : ∀ c ∈ children, FollowsGrammar c) :
    (node kind start children).Ensures IsDesignator :=
  ensures_node fun _ => ⟨follows_plain hkind htext rfl hchildren, hdesignator⟩

theorem byReference_follows {inner : Reader Node} (hinner : inner.Ensures FollowsGrammar) :
    (byReference inner).Ensures FollowsGrammar :=
  ensures_skip fun _ => ensures_skip fun _ => follows_around rfl (by decide) hinner

section Arguments

variable (hg : g.Follows)
include hg

theorem parenthesized_designator : (parenthesized g).Ensures IsDesignator := by
  refine ensures_skip fun start => ensures_skip fun _ => ?_
  refine ensures_bind (hg.expression _) fun inner hinner => ensures_skip fun _ => ?_
  exact designator_node rfl (by decide) (by decide) (by simpa using hinner)

theorem computedVariable_designator (rounds : Nat) :
    (computedVariable g rounds).Ensures IsDesignator := by
  have hnode {start : Nat} {inner : Node} (h : FollowsGrammar inner) :
      (node "dynamic_variable_name" start [inner]).Ensures IsDesignator :=
    designator_node rfl (by decide) (by decide) (by simpa using h)
  induction rounds with
  | zero => exact ensures_failure
  | succ rounds ih =>
    refine ensures_skip fun start => ensures_skip fun next => ?_
    split
    · exact ensures_leaf fun _ _ => ⟨follows_of_childless rfl, by simp⟩
    · refine ensures_skip fun _ => ensures_skip fun brace => ensures_ite (fun _ => ?_) fun _ => ?_
      · exact ensures_bind (hg.expression _) fun inner hinner => ensures_skip fun _ => hnode hinner
      · exact ensures_bind ih fun inner hinner => hnode hinner.follows

theorem anyVariable_designator : (anyVariable g).Ensures IsDesignator :=
  ensures_skip fun _ => computedVariable_designator hg _

theorem anyVariable_follows : (anyVariable g).Ensures FollowsGrammar :=
  (anyVariable_designator hg).mono fun _ h => h.follows

/-! ## Arguments and elements -/

theorem unpacking_follows : (unpacking g).Ensures FollowsGrammar :=
  ensures_skip fun _ => ensures_skip fun _ => follows_around rfl (by decide) (hg.expression _)

theorem argument_follows : (argument g).Ensures FollowsGrammar := by
  refine ensures_skip fun start => ensures_skip fun _ => ensures_skip fun _ => ?_
  extract_lets afterLabel
  have hafter : ∀ label : List Node, (∀ c ∈ label, FollowsGrammar c) →
      (afterLabel label).Ensures FollowsGrammar := by
    intro label hlabel
    refine ensures_skip fun _ => ?_
    refine ensures_optional (S := FollowsGrammar) (ensures_leaf fun _ _ => follows_of_childless rfl)
      fun mark hmark => ?_
    have hnode {value : Node} (hvalue : FollowsGrammar value) :
        (node "argument" start (label ++ mark ++ [value])).Ensures FollowsGrammar := by
      refine follows_node rfl (by decide) ?_
      simp only [List.forall_mem_append, List.forall_mem_singleton]
      exact ⟨⟨hlabel, hmark.forall_mem⟩, hvalue⟩
    refine ensures_skip fun _ => ensures_ite (fun _ => ?_) fun _ => ?_
    · exact ensures_bind (unpacking_follows hg) fun value hvalue => hnode hvalue
    · exact ensures_bind (hg.expression _) fun value hvalue => hnode hvalue
  clear_value afterLabel
  refine ensures_ite (fun _ => ?_) fun _ => ?_
  · refine ensures_bind inert_name fun label hlabel => ensures_skip fun _ => ?_
    exact hafter _ (by simpa using hlabel.1.withField "name")
  · exact hafter _ (by simp)

theorem arguments_follows : (arguments g).Ensures IsArgumentList := by
  have hnode {start : Nat} {items : List Node} (hitems : ∀ c ∈ items, FollowsGrammar c) :
      (node "arguments" start items).Ensures IsArgumentList :=
    ensures_node fun _ => ⟨follows_plain rfl (by simp) rfl hitems, rfl⟩
  refine ensures_skip fun start => ensures_skip fun _ => ensures_skip fun _ => ensures_skip fun _ => ?_
  refine ensures_ite (fun _ => ?_) fun _ => ?_
  · refine ensures_bind (P := FollowsGrammar) (ensures_leaf fun _ _ => follows_of_childless rfl)
      fun placeholder hplaceholder => ensures_skip fun _ => ?_
    exact hnode (by simpa using hplaceholder)
  · refine ensures_bind (P := fun items => ∀ c ∈ items, FollowsGrammar c) (ensures_listUntil ?_) ?_
    · exact ensures_bind (argument_follows hg) fun item hitem => ensures_pure (by simpa using hitem)
    · exact fun items hitems => hnode hitems

theorem elementValue_follows : (elementValue g).Ensures FollowsGrammar :=
  ensures_skip fun _ => ensures_ite (fun _ => byReference_follows (hg.expression _))
    fun _ => hg.expression _

theorem keyedValue_follows : (keyedValue g).Ensures fun parts => ∀ c ∈ parts, FollowsGrammar c := by
  refine ensures_bind (elementValue_follows hg) fun first hfirst => ensures_skip fun _ => ?_
  refine ensures_ite (fun _ => ?_) fun _ => ensures_pure (by simpa using hfirst)
  refine ensures_bind (elementValue_follows hg) fun value hvalue => ensures_pure ?_
  simpa using ⟨hfirst, hvalue⟩

theorem element_follows : (element g).Ensures FollowsGrammar := by
  have hnode {start : Nat} {parts : List Node} (hparts : ∀ c ∈ parts, FollowsGrammar c) :
      (node "array_element_initializer" start parts).Ensures FollowsGrammar :=
    ensures_node fun _ => follows_open rfl (Or.inr (Or.inl rfl)) rfl hparts
  refine ensures_skip fun start => ensures_skip fun _ => ensures_ite (fun _ => ?_) fun _ => ?_
  · exact ensures_bind (unpacking_follows hg) fun part hpart => hnode (by simpa using hpart)
  · exact ensures_bind (keyedValue_follows hg) fun parts hparts => hnode hparts

theorem elements_follows (close : Symbol) :
    (elements g close).Ensures fun items => ∀ c ∈ items, FollowsGrammar c := by
  refine ensures_listUntil (ensures_skip fun _ => ?_)
  refine ensures_ite (fun _ => ensures_pure (by simp)) fun _ => ?_
  exact ensures_bind (element_follows hg) fun item hitem => ensures_pure (by simpa using hitem)

end Arguments

mutual

/-- An array follows the grammar also as the list of its targets. -/
theorem asTarget_follows : ∀ {n : Node}, FollowsGrammar n → FollowsGrammar (asTarget n)
  | .node mark kind named field start stop children, h => by
    rw [asTarget]
    split
    · have hchildren : ∀ c ∈ children, FollowsGrammar c := fun c hc => h.of_mem_children hc
      cases named with
      | true => exact follows_plain rfl (by simp) rfl (asTargets_follows hchildren)
      | false =>
        have hnil : children = [] := h.fits.token rfl
        exact follows_of_childless (by simp [hnil, asTargets])
    · exact h

theorem asTargets_follows : ∀ {items : List Node}, (∀ n ∈ items, FollowsGrammar n) →
    ∀ n ∈ asTargets items, FollowsGrammar n
  | [], _ => by simp [asTargets]
  | .node _ _ _ _ _ _ parts :: rest, h => by
    rw [asTargets]
    have hitem := h _ List.mem_cons_self
    have hparts : ∀ c ∈ parts, FollowsGrammar c := fun c hc => hitem.of_mem_children hc
    rw [List.forall_mem_append]
    exact ⟨asTargetParts_follows hparts, asTargets_follows fun n hn => h n (List.mem_cons_of_mem _ hn)⟩

theorem asTargetParts_follows : ∀ {parts : List Node}, (∀ n ∈ parts, FollowsGrammar n) →
    ∀ n ∈ asTargetParts parts, FollowsGrammar n
  | [], _ => by simp [asTargetParts]
  | [value], h => by
    rw [asTargetParts, List.forall_mem_singleton]
    exact asTarget_follows (h value List.mem_cons_self)
  | key :: next :: rest, h => by
    rw [asTargetParts, List.forall_mem_cons]
    exact ⟨h key List.mem_cons_self, asTargetParts_follows fun n hn => h n (List.mem_cons_of_mem _ hn)⟩

end

section Operands

variable (hg : g.Follows)
include hg

theorem bracketArray_follows : (bracketArray g).Ensures FollowsGrammar :=
  ensures_skip fun _ => ensures_skip fun _ => ensures_bind (elements_follows hg _) fun _ hitems =>
    follows_node rfl (by decide) hitems

theorem keywordArray_follows : (keywordArray g).Ensures FollowsGrammar :=
  ensures_skip fun _ => ensures_skip fun _ => ensures_skip fun _ =>
    ensures_bind (elements_follows hg _) fun _ hitems => follows_node rfl (by decide) hitems

theorem keywordList_follows : (keywordList g).Ensures FollowsGrammar :=
  ensures_skip fun _ => ensures_skip fun _ => ensures_skip fun _ =>
    ensures_bind (elements_follows hg _) fun _ hitems => follows_node rfl (by decide) (asTargets_follows hitems)

/-! ## Functions -/

omit hg in
theorem aside_of_leading {found : List Node} (h : ∀ c ∈ found, Leading c) :
    ∀ c ∈ found, Aside c := fun c hc => (h c hc).1

/-- A child of a parameter: it mentions nothing or it is hidden. -/
def IsParameterPart (c : Node) : Prop :=
  Inert c ∨ FollowsGrammar c ∧ (c.field = some "default_value" ∨ isMemberListKind c.kind)

theorem parameter_follows : (parameter g).Ensures FollowsGrammar := by
  refine ensures_skip fun start => ensures_bind leading_attributes fun attributes hattributes => ?_
  refine ensures_bind leading_modifiers fun modifiers hmodifiers => ensures_skip fun next => ?_
  extract_lets afterType
  have hafter : ∀ type : List Node, (∀ c ∈ type, Inert c) →
      (afterType type).Ensures FollowsGrammar := by
    intro type htype
    refine ensures_skip fun _ => ?_
    refine ensures_optional (S := Inert)
      ((inert_leaf rfl).mono fun n hn => hn.withField "reference_modifier") fun mark hmark => ?_
    refine ensures_skip fun isVariadic => ensures_bind inert_plainVariable fun name hname => ?_
    refine ensures_skip fun _ => ?_
    refine ensures_optional (S := IsParameterPart)
      ((hg.expression _).mono fun n hn => Or.inr ⟨hn.withField "default_value", by simp⟩)
      fun default hdefault => ?_
    refine ensures_skip fun _ => ?_
    refine ensures_optional (S := IsParameterPart)
      (hg.members.mono fun n hn => Or.inr ⟨hn.1, Or.inr hn.2⟩) fun hooks hhooks => ?_
    refine ensures_node fun stop => follows_parameter ?_ rfl ?_
    · rw [kind_node]
      split
      · rfl
      · split <;> rfl
    · simp only [children_node, List.forall_mem_append, List.forall_mem_singleton]
      exact ⟨⟨⟨⟨⟨⟨fun c hc => Or.inl (hattributes c hc).1.inert,
        fun c hc => Or.inl (hmodifiers c hc).1.inert⟩, fun c hc => Or.inl (htype c hc)⟩,
        fun c hc => Or.inl (hmark.forall_mem c hc)⟩, Or.inl (hname.withField "name")⟩,
        hdefault.forall_mem⟩, hhooks.forall_mem⟩
  clear_value afterType
  have htyped : (typeExpression >>= fun n => pure [n.withField "type"] >>= afterType).Ensures
      FollowsGrammar :=
    ensures_bind (inert_typeExpression false) fun n hn =>
      hafter _ (by simpa using hn.withField "type")
  split
  · exact htyped
  · exact htyped
  · exact htyped
  · exact htyped
  · exact hafter _ (by simp)

/-- The parameters of a function, as its child. -/
structure IsParameters (n : Node) : Prop where
  follows : FollowsGrammar n
  kind : n.kind = "formal_parameters"
  field : n.field = some "parameters"

theorem parameters_follows : (parameters g).Ensures IsParameters := by
  refine ensures_skip fun start => ensures_skip fun _ => ?_
  refine ensures_bind (P := fun items => ∀ c ∈ items, FollowsGrammar c) (ensures_listUntil ?_) ?_
  · exact ensures_bind (parameter_follows hg) fun item hitem => ensures_pure (by simpa using hitem)
  · intro items hitems
    refine ensures_bind (P := fun n => FollowsGrammar n ∧ n.kind = "formal_parameters")
      (ensures_node fun _ => ⟨follows_plain rfl (by simp) rfl hitems, rfl⟩) fun n hn => ensures_pure ?_
    exact ⟨hn.1.withField _, by simp [hn.2], by simp⟩

omit hg in
theorem aside_referenceMark : referenceMark.Ensures fun mark => ∀ c ∈ mark, Aside c := by
  refine ensures_skip fun _ => ensures_ite (fun _ => ?_) fun _ => ensures_pure (by simp)
  refine ensures_bind (P := Inert) (inert_leaf rfl) fun n hn => ensures_pure ?_
  simpa using Aside.of_inert hn (by decide)

/-- The body of something, as its child. -/
def IsBody (n : Node) : Prop := FollowsGrammar n ∧ n.field = some "body"

theorem body_follows : (body g).Ensures IsBody := by
  have hreturn : (g.statement .own >>= fun n => pure (n.withField "body")).Ensures IsBody :=
    ensures_bind (hg.statement _) fun n hn => ensures_pure ⟨hn.withField _, by simp⟩
  refine ensures_skip fun _ => ensures_ite (fun _ => hreturn) fun _ => ?_
  exact ensures_bind ensures_failure fun _ => False.elim

theorem closureVariables_capture :
    (closureVariables g).Ensures fun captured => ∀ c ∈ captured, IsCapture c := by
  refine ensures_skip fun start => ensures_skip fun _ => ?_
  refine ensures_ite (fun _ => ensures_skip fun _ => ?_) fun _ => ensures_pure (by simp)
  refine ensures_bind (P := fun items => ∀ c ∈ items, FollowsGrammar c)
    (ensures_listUntil (ensures_skip fun _ => ensures_ite (fun _ => ?_) fun _ => ?_)) ?_
  · exact ensures_bind (byReference_follows (anyVariable_follows hg)) fun item hitem =>
      ensures_pure (by simpa using hitem)
  · exact ensures_bind (anyVariable_follows hg) fun item hitem => ensures_pure (by simpa using hitem)
  · intro items hitems
    refine ensures_bind (P := IsCapture)
      (ensures_node fun _ => ⟨follows_plain rfl (by simp) rfl hitems, rfl, rfl⟩) fun n hn => ?_
    exact ensures_pure (by simpa using hn)

theorem closure_follows {attributes : List Node} (hattributes : ∀ c ∈ attributes, Aside c) :
    (closure g start attributes).Ensures FollowsGrammar := by
  refine ensures_skip fun _ => ?_
  refine ensures_optional (S := Aside)
    ((inert_leaf rfl).mono fun n hn => Aside.of_inert hn (by decide)) fun modifier hmodifier => ?_
  refine ensures_skip fun _ => ensures_ite (fun _ => ?_) fun _ => ?_
  · refine ensures_bind aside_referenceMark fun mark hmark => ?_
    refine ensures_bind (parameters_follows hg) fun parameters hparameters => ?_
    refine ensures_bind aside_returnType fun type htype => ensures_skip fun _ => ?_
    refine ensures_bind (hg.expression _) fun body hbody => ensures_node fun stop => ?_
    have hbefore : ∀ c ∈ attributes ++ modifier ++ mark, Aside c := by
      simp only [List.forall_mem_append]
      exact ⟨⟨hattributes, hmodifier.forall_mem⟩, hmark⟩
    exact follows_function rfl rfl (by simp) hbefore hparameters.follows hparameters.field
      hparameters.kind (fun c hc => Or.inl (htype c hc))
      (Or.inr ⟨body.withField "body", rfl, hbody.withField "body", by simp⟩)
  · refine ensures_skip fun _ => ensures_bind aside_referenceMark fun mark hmark => ?_
    refine ensures_bind (parameters_follows hg) fun parameters hparameters => ?_
    refine ensures_bind (closureVariables_capture hg) fun captured hcaptured => ?_
    refine ensures_bind aside_returnType fun type htype => ?_
    refine ensures_bind (body_follows hg) fun body hbody => ensures_node fun stop => ?_
    have hbefore : ∀ c ∈ attributes ++ modifier ++ mark, Aside c := by
      simp only [List.forall_mem_append]
      exact ⟨⟨hattributes, hmodifier.forall_mem⟩, hmark⟩
    have hbetween : ∀ c ∈ captured ++ type, Aside c ∨ IsCapture c := by
      rw [List.forall_mem_append]
      exact ⟨fun c hc => Or.inr (hcaptured c hc), fun c hc => Or.inl (htype c hc)⟩
    exact follows_function rfl rfl (by simp) hbefore hparameters.follows hparameters.field
      hparameters.kind hbetween (Or.inr ⟨body, rfl, hbody.1, hbody.2⟩)

/-! ## Members and calls -/

/-- The name of a member, as a child. -/
def IsMemberName (n : Node) : Prop := FollowsGrammar n ∧ n.field = some "name"

theorem memberName_follows : (memberName g).Ensures IsMemberName := by
  have hnamed {n : Node} (hn : FollowsGrammar n) : IsMemberName (n.withField "name") :=
    ⟨hn.withField _, by simp⟩
  refine ensures_skip fun _ => ensures_ite (fun _ => ?_) fun _ => ?_
  · refine ensures_bind (hg.expression _) fun inner hinner => ensures_skip fun _ => ?_
    exact ensures_pure (hnamed hinner)
  · refine ensures_skip fun _ => ensures_ite (fun _ => ?_) fun _ => ?_
    · exact ensures_bind inert_name fun n hn => ensures_pure (hnamed hn.1)
    · exact ensures_bind (anyVariable_follows hg) fun n hn => ensures_pure (hnamed hn)

theorem member_designator (calls : Bool) (hkind : kind = "" ∨ kind = "nullsafe_") {object : Node}
    (hobject : FollowsGrammar object) : (member g calls kind object).Ensures IsDesignator := by
  refine ensures_skip fun _ => ensures_bind (memberName_follows hg) fun name hname => ensures_skip fun _ => ?_
  refine ensures_ite (fun _ => ?_) fun _ => ?_
  · refine ensures_bind (arguments_follows hg) fun arguments harguments => ensures_node fun stop => ?_
    have hshape : Shape.ofKind? (kind ++ "member_call_expression") = some .memberCall := by
      rcases hkind with rfl | rfl <;> rfl
    exact .of_shape hshape
      (follows_memberCall hshape rfl rfl hobject hname.1 hname.2 harguments)
  · refine ensures_node fun stop => ?_
    have hshape : Shape.ofKind? (kind ++ "member_access_expression") = some .memberAccess := by
      rcases hkind with rfl | rfl <;> rfl
    exact .of_shape hshape (follows_memberAccess hshape rfl rfl hobject hname.1 hname.2)

theorem scopedMember_designator (calls : Bool) {scope : Node} (hscope : FollowsGrammar scope) :
    (scopedMember g calls scope).Ensures IsDesignator := by
  refine ensures_skip fun _ => ensures_skip fun isName => ensures_skip fun isBraced => ?_
  refine ensures_bind (memberName_follows hg) fun name hname => ensures_skip fun _ => ?_
  refine ensures_ite (fun _ => ?_) fun _ => ensures_ite (fun _ => ?_) fun _ => ?_
  · refine ensures_bind (arguments_follows hg) fun arguments harguments => ensures_node fun stop => ?_
    exact .of_shape rfl
      (follows_scopedCall rfl rfl rfl hscope hname.1 hname.2 harguments)
  · obtain ⟨mark, kind, named, field, start, stop, children⟩ := name
    refine ensures_node fun last => .of_shape rfl (follows_open rfl (Or.inr (Or.inr rfl)) rfl ?_)
    simp only [children_node, List.forall_mem_cons, List.not_mem_nil, false_implies, implies_true, and_true]
    exact ⟨hscope, hname.1.congr rfl rfl rfl⟩
  · refine ensures_node fun stop => .of_shape rfl (follows_open rfl (Or.inr (Or.inr rfl)) rfl ?_)
    simpa using ⟨hscope.withField "scope", hname.1⟩

theorem subscript_designator {array : Node} (harray : FollowsGrammar array) :
    (subscript g array).Ensures IsDesignator := by
  refine ensures_skip fun _ => ensures_skip fun _ => ?_
  refine ensures_optional_else (S := FollowsGrammar) (hg.expression _) fun index hindex => ?_
  refine ensures_skip fun _ => designator_node rfl (by decide) (by decide) ?_
  simpa using ⟨harray, hindex.forall_mem⟩

theorem postfixStep_follows {operand : Node} (hoperand : FollowsGrammar operand) :
    (postfixStep g operand).Ensures fun found => ∀ n ∈ found, FollowsGrammar n := by
  have hreturn {r : Reader Node} (hr : r.Ensures IsDesignator) :
      (r >>= fun n => pure (some n)).Ensures fun found => ∀ n ∈ found, FollowsGrammar n :=
    ensures_bind hr fun n hn => ensures_pure (by simpa using hn.follows)
  refine ensures_skip fun next => ?_
  split
  · exact hreturn (member_designator hg true (Or.inl rfl) hoperand)
  · exact hreturn (member_designator hg true (Or.inr rfl) hoperand)
  · exact hreturn (scopedMember_designator hg true hoperand)
  · exact hreturn (subscript_designator hg hoperand)
  · refine ensures_bind (arguments_follows hg) fun arguments harguments => hreturn ?_
    refine ensures_node fun stop => .of_shape rfl ?_
    exact follows_call rfl rfl rfl hoperand harguments
  · exact ensures_pure (by simp)

theorem designatorStep_designator {designator : Node} (hdesignator : IsDesignator designator) :
    (designatorStep g designator).Ensures fun found => ∀ n ∈ found, IsDesignator n := by
  have hreturn {r : Reader Node} (hr : r.Ensures IsDesignator) :
      (r >>= fun n => pure (some n)).Ensures fun found => ∀ n ∈ found, IsDesignator n :=
    ensures_bind hr fun n hn => ensures_pure (by simpa using hn)
  refine ensures_skip fun next => ?_
  split
  · exact hreturn (member_designator hg false (Or.inl rfl) hdesignator.follows)
  · exact hreturn (member_designator hg false (Or.inr rfl) hdesignator.follows)
  · exact hreturn (scopedMember_designator hg false hdesignator.follows)
  · exact hreturn (subscript_designator hg hdesignator.follows)
  · exact ensures_pure (by simp)

theorem classDesignator_designator : (classDesignator g).Ensures IsDesignator := by
  have hextend {n : Node} (hn : IsDesignator n) :
      (extend (designatorStep g) n).Ensures IsDesignator :=
    ensures_extend (fun _ h => designatorStep_designator hg h) hn
  refine ensures_skip fun next => ?_
  split
  · exact parenthesized_designator hg
  · exact ensures_bind (anyVariable_designator hg) fun n hn => hextend hn
  · exact ensures_bind (anyVariable_designator hg) fun n hn => hextend hn
  · refine ensures_bind designator_qualifiedName fun n hn => ensures_skip fun _ => ?_
    exact ensures_ite (fun _ => hextend hn) fun _ => ensures_pure hn

omit hg in
theorem inert_typeClause (word : Keyword) (hkind : Shape.ofKind? kind = none) :
    (typeClause word kind).Ensures fun clauses => ∀ c ∈ clauses, Inert c := by
  refine ensures_skip fun start => ensures_skip fun _ => ?_
  refine ensures_ite (fun _ => ?_) fun _ => ensures_pure (by simp)
  refine ensures_bind (ensures_commaSeparated inert_qualifiedName) fun names hnames => ?_
  exact ensures_bind (inert_node hkind hnames) fun n hn => ensures_pure (by simpa using hn)

theorem classBody_isClassBody : (classBody g).Ensures fun n => IsClassBody n ∧ n.field = some "body" := by
  refine ensures_bind hg.members fun body hbody => ?_
  refine ensures_ite (fun _ => ensures_bind ensures_failure fun _ => False.elim) fun hhooks => ?_
  have hkind : holdsMembers body.kind = true := by
    have hlist := hbody.2
    unfold isMemberListKind at hlist
    split at hlist <;> simp_all [holdsMembers]
  exact ensures_pure ⟨⟨hbody.1.withField "body", by simpa using hkind⟩, by simp⟩

omit hg in
theorem find?_arguments {leading : List Node} (after : List Node) {arguments : Node}
    (hleading : ∀ c ∈ leading, Leading c) (hkind : arguments.kind = "arguments")
    (hvisible : arguments.isVisible = true) :
    ((leading ++ arguments :: after).filter Concrete.isVisible).find? (·.kind == "arguments") =
      some arguments := by
  have hnone : (leading.filter Concrete.isVisible).find? (·.kind == "arguments") = none := by
    rw [List.find?_eq_none]
    intro c hc
    simpa using (hleading c (List.mem_filter.mp hc).1).2
  rw [List.filter_append, List.filter_cons_of_pos hvisible, List.find?_append, hnone, Option.none_or]
  simp [hkind]

theorem anonymousClass_follows :
    (anonymousClass g).Ensures fun n => FollowsGrammar n ∧ IsAnonymousClass n := by
  refine ensures_skip fun start => ensures_bind leading_attributes fun attributes hattributes => ?_
  refine ensures_bind leading_modifiers fun modifiers hmodifiers => ensures_skip fun _ => ?_
  refine ensures_skip fun _ => ?_
  refine ensures_optional (S := IsArgumentList) (arguments_follows hg) fun arguments harguments => ?_
  refine ensures_bind (inert_typeClause .extends_ rfl) fun base hbase => ?_
  refine ensures_bind (inert_typeClause .implements_ rfl) fun interfaces hinterfaces => ?_
  refine ensures_bind (classBody_isClassBody hg) fun body hbody => ensures_node fun stop => ?_
  have hleading : ∀ c ∈ attributes ++ modifiers, Leading c :=
    List.forall_mem_append.mpr ⟨hattributes, hmodifiers⟩
  refine ⟨follows_plain rfl (by simp) rfl ?_, isAnonymousClass_of_children rfl hbody.1 ?_⟩
  · simp only [children_node, List.forall_mem_append, List.forall_mem_singleton]
    exact ⟨⟨⟨⟨⟨fun c hc => (hattributes c hc).1.inert.1, fun c hc => (hmodifiers c hc).1.inert.1⟩,
      fun c hc => (harguments.forall_mem c hc).follows⟩, fun c hc => (hbase c hc).1⟩,
      fun c hc => (hinterfaces c hc).1⟩, hbody.1.follows⟩
  · intro d hd hvisible
    simp only [List.mem_append] at hd
    rcases hd with (((hd | hd) | hd) | hd) | hd
    · exact Or.inl (hattributes d hd).1.inert
    · exact Or.inl (hmodifiers d hd).1.inert
    · rcases harguments with rfl | ⟨a, rfl, ha⟩
      · cases hd
      · rw [List.mem_singleton] at hd
        subst hd
        have hfind := find?_arguments (base ++ interfaces ++ [body]) hleading ha.kind hvisible
        exact Or.inr ⟨ha.kind, by simpa using hfind⟩
    · exact Or.inl (hbase d hd)
    · exact Or.inl (hinterfaces d hd)

theorem creation_follows : (creation g).Ensures FollowsGrammar := by
  refine ensures_skip fun start => ensures_skip fun _ => ensures_skip fun _ => ?_
  refine ensures_ite (fun _ => ?_) fun _ => ?_
  · refine ensures_bind (anonymousClass_follows hg) fun declared hdeclared => ensures_node fun stop => ?_
    exact follows_creation_anonymous rfl rfl rfl hdeclared.1 hdeclared.2
  · refine ensures_bind (classDesignator_designator hg) fun designator hdesignator => ?_
    refine ensures_skip fun _ => ?_
    refine ensures_optional (S := IsArgumentList) (arguments_follows hg) fun arguments harguments => ?_
    exact ensures_node fun stop => follows_creation rfl rfl rfl hdesignator harguments

/-! ## Operands -/

theorem matchArm_follows : (matchArm g).Ensures FollowsGrammar := by
  refine ensures_skip fun start => ensures_skip fun _ => ensures_skip fun _ => ensures_skip fun _ => ?_
  refine ensures_ite (fun _ => ?_) fun _ => ?_
  · refine ensures_skip fun _ => ensures_skip fun _ => ensures_skip fun _ => ?_
    refine ensures_bind (hg.expression _) fun value hvalue => follows_node rfl (by decide) ?_
    simpa using hvalue.withField "return_expression"
  · refine ensures_bind (P := fun items => ∀ c ∈ items, FollowsGrammar c) (ensures_listUntil ?_) ?_
    · exact ensures_bind (hg.expression _) fun item hitem => ensures_pure (by simpa using hitem)
    · intro conditions hconditions
      refine ensures_bind (follows_node rfl (by decide) hconditions) fun list hlist => ?_
      refine ensures_bind (hg.expression _) fun value hvalue => follows_node rfl (by decide) ?_
      simpa using ⟨hlist.withField "conditional_expressions", hvalue.withField "return_expression"⟩

theorem matchExpression_follows : (matchExpression g).Ensures FollowsGrammar := by
  refine ensures_skip fun start => ensures_skip fun _ => ?_
  refine ensures_bind (parenthesized_designator hg) fun condition hcondition => ?_
  refine ensures_skip fun _ => ensures_skip fun _ => ?_
  refine ensures_bind (P := fun items => ∀ c ∈ items, FollowsGrammar c) (ensures_listUntil ?_) ?_
  · exact ensures_bind (matchArm_follows hg) fun item hitem => ensures_pure (by simpa using hitem)
  · intro arms harms
    refine ensures_bind (follows_node rfl (by decide) harms) fun block hblock => ?_
    refine follows_node rfl (by decide) ?_
    simpa using ⟨hcondition.follows.withField "condition", hblock.withField "body"⟩

theorem yieldExpression_follows : (yieldExpression g).Ensures FollowsGrammar := by
  refine ensures_skip fun start => ensures_skip fun _ => ensures_skip fun _ => ?_
  refine ensures_ite (fun _ => follows_node rfl (by decide) (by simp)) fun _ => ensures_skip fun _ => ?_
  refine ensures_ite (fun _ => ?_) fun _ => ?_
  · exact ensures_skip fun _ => follows_around rfl (by decide) (hg.expression _)
  · refine ensures_skip fun _ => ensures_bind (keyedValue_follows hg) fun parts hparts => ?_
    exact follows_around rfl (by decide) (ensures_node fun _ => follows_open rfl (Or.inr (Or.inl rfl)) rfl hparts)

theorem swallowing_follows {keyword : Keyword} (hkind : swallowingKind? keyword = some kind) :
    (swallowing g kind).Ensures FollowsGrammar := by
  refine ensures_skip fun start => ensures_skip fun _ => ?_
  by_cases hthrow : kind = "throw_expression"
  · subst hthrow
    refine ensures_bind (hg.expression _) fun value hvalue => ensures_node fun _ => ?_
    exact follows_single rfl (Or.inl rfl) rfl (by simp) (by simpa using hvalue)
  · have hplain : Shape.ofKind? kind = none ∧ kind ≠ "text_interpolation" := by
      cases keyword <;> simp_all [swallowingKind?] <;> subst hkind <;> decide
    exact follows_around hplain.1 hplain.2 (hg.expression _)

omit hg in
theorem nameOperand_follows (keyword : Option Keyword) : (nameOperand keyword).Ensures FollowsGrammar := by
  have hname : qualifiedName.Ensures FollowsGrammar := inert_qualifiedName.mono fun _ h => h.1
  have hleaf (kind : String) : (leaf kind).Ensures FollowsGrammar :=
    ensures_leaf fun _ _ => follows_of_childless rfl
  refine ensures_skip fun scopes => ?_
  split
  · exact ensures_ite (fun _ => hleaf _) fun _ => hname
  · exact ensures_ite (fun _ => hleaf _) fun _ => hname
  · exact ensures_ite (fun _ => hleaf _) fun _ => hname
  · exact ensures_skip fun _ => ensures_ite (fun _ => hname) fun _ => hleaf _
  · exact ensures_skip fun _ => ensures_ite (fun _ => hname) fun _ => hleaf _
  · exact ensures_skip fun _ => ensures_ite (fun _ => hname) fun _ => hleaf _
  · exact hname

/-- An operand followed by members, elements and calls. -/
theorem extended_follows {r : Reader Node} (hr : r.Ensures FollowsGrammar) :
    (r >>= extend (postfixStep g)).Ensures FollowsGrammar :=
  ensures_bind hr fun _ hn => ensures_extend (fun _ h => postfixStep_follows hg h) hn

theorem wordOperand_follows (keyword : Option Keyword) :
    (wordOperand g keyword).Ensures FollowsGrammar := by
  have hname := extended_follows hg (nameOperand_follows keyword)
  have hclosure : (position >>= fun start => closure g start []).Ensures FollowsGrammar :=
    ensures_skip fun _ => closure_follows hg (by simp)
  unfold wordOperand
  split
  · exact extended_follows hg (creation_follows hg)
  · refine ensures_skip fun _ => ensures_ite (fun _ => ?_) fun _ => hname
    exact extended_follows hg (matchExpression_follows hg)
  · refine ensures_skip fun _ => ensures_ite (fun _ => ?_) fun _ => hname
    exact extended_follows hg (keywordArray_follows hg)
  · exact ensures_skip fun _ => ensures_ite (fun _ => keywordList_follows hg) fun _ => hname
  · exact yieldExpression_follows hg
  · refine ensures_skip fun start => ensures_skip fun _ => ?_
    exact follows_around rfl (by decide) (hg.expression _)
  · exact hclosure
  · exact hclosure
  · refine ensures_skip fun _ => ensures_skip fun _ => ensures_ite (fun _ => hclosure) fun _ => hname
  · split
    · exact swallowing_follows hg ‹_›
    · exact hname
  · exact hname

theorem cast_follows : (cast g).Ensures FollowsGrammar := by
  refine ensures_skip fun start => ensures_skip fun _ => ?_
  refine ensures_bind (P := FollowsGrammar) (ensures_leaf fun _ _ => follows_of_childless rfl)
    fun type htype => ensures_skip fun _ => ?_
  refine ensures_bind (hg.expression _) fun value hvalue => follows_node rfl (by decide) ?_
  simpa using ⟨htype.withField "type", hvalue.withField "value"⟩

theorem unary_follows (symbol : Symbol) : (unary g symbol).Ensures FollowsGrammar := by
  refine ensures_skip fun start => ensures_bind isOperator_operator fun operator hoperator => ?_
  refine ensures_bind (hg.expression _) fun argument hargument => ensures_node fun stop => ?_
  exact follows_prefixed rfl rfl rfl hoperator hargument

theorem prefixUpdate_follows (symbol : Symbol) : (prefixUpdate g symbol).Ensures FollowsGrammar := by
  refine ensures_skip fun start => ensures_bind isOperator_operator fun operator hoperator => ?_
  refine ensures_bind (hg.expression _) fun argument hargument => follows_node rfl (by decide) ?_
  simpa using ⟨hoperator.follows, hargument.withField "argument"⟩

theorem symbolOperand_follows (symbol : Symbol) : (symbolOperand g symbol).Ensures FollowsGrammar := by
  unfold symbolOperand
  split
  · exact extended_follows hg (anyVariable_follows hg)
  · exact extended_follows hg (inert_qualifiedName.mono fun _ h => h.1)
  · exact extended_follows hg (bracketArray_follows hg)
  · refine ensures_skip fun _ => ensures_ite (fun _ => cast_follows hg) fun _ => ?_
    exact extended_follows hg ((parenthesized_designator hg).mono fun _ h => h.follows)
  · refine ensures_skip fun start => ensures_bind leading_attributes fun attributes h => ?_
    exact closure_follows hg (aside_of_leading h)
  · exact unary_follows hg _
  · exact unary_follows hg _
  · exact unary_follows hg _
  · exact unary_follows hg _
  · refine ensures_skip fun start => ensures_skip fun _ => ?_
    exact follows_around rfl (by decide) (hg.expression _)
  · exact prefixUpdate_follows hg _
  · exact prefixUpdate_follows hg _
  · exact ensures_failure

theorem primary_follows : (primary g).Ensures FollowsGrammar := by
  refine ensures_skip fun next => ?_
  split
  · exact extended_follows hg (anyVariable_follows hg)
  · exact wordOperand_follows hg _
  · exact symbolOperand_follows hg _
  · split
    · exact extended_follows hg (ensures_leaf fun _ _ => follows_of_childless rfl)
    · exact ensures_failure
  · exact ensures_failure

theorem assignment_follows {left : Node} (hleft : FollowsGrammar left) :
    (assignment g left).Ensures FollowsGrammar := by
  refine ensures_skip fun next => ?_
  split
  · refine ensures_skip fun _ => ensures_skip fun _ => ?_
    have hnode {kind : String} (hkind : Shape.ofKind? kind = some .assignment) :
        (g.expression Level.assigned >>= fun right => node kind left.start
          [(asTarget left).withField "left", right.withField "right"]).Ensures FollowsGrammar := by
      refine ensures_bind (hg.expression _) fun right hright => ensures_node fun stop => ?_
      exact follows_operands [] hkind (Or.inr rfl) rfl rfl (asTarget_follows hleft) (by simp) hright
    exact ensures_ite (fun _ => hnode rfl) fun _ => hnode rfl
  · refine ensures_ite (fun _ => ?_) fun _ => ensures_pure hleft
    refine ensures_bind isOperator_operator fun operator hoperator => ?_
    refine ensures_bind (hg.expression _) fun right hright => ensures_node fun stop => ?_
    exact follows_operands [operator] rfl (Or.inr rfl) rfl rfl hleft (by simpa using hoperator) hright
  · exact ensures_pure hleft

theorem operand_follows : (operand g).Ensures FollowsGrammar := by
  refine ensures_bind (primary_follows hg) fun first hfirst => ensures_skip fun next => ?_
  have hupdate (kind : String) : (operator kind >>= fun operator => node "update_expression" first.start
      [first.withField "argument", operator]).Ensures FollowsGrammar := by
    refine ensures_bind isOperator_operator fun operator hoperator => follows_node rfl (by decide) ?_
    simpa using ⟨hfirst.withField "argument", hoperator.follows⟩
  split
  · exact hupdate _
  · exact hupdate _
  · exact ensures_ite (fun _ => assignment_follows hg hfirst) fun _ => ensures_pure hfirst

/-! ## Operators -/

theorem operatorStep_follows (level : Nat) {left : Node} (hleft : FollowsGrammar left) :
    (operatorStep g level left).Ensures fun found => ∀ n ∈ found, FollowsGrammar n := by
  have hreturn {r : Reader Node} (hr : r.Ensures FollowsGrammar) :
      (r >>= fun n => pure (some n)).Ensures fun found => ∀ n ∈ found, FollowsGrammar n :=
    ensures_bind hr fun n hn => ensures_pure (by simpa using hn)
  have hbinary {operator right : Node} (hoperator : IsOperator operator) (hright : FollowsGrammar right) :
      (node "binary_expression" left.start
        [left.withField "left", operator, right.withField "right"]).Ensures FollowsGrammar :=
    ensures_node fun stop =>
      follows_operands [operator] rfl (Or.inl rfl) rfl rfl hleft (by simpa using hoperator) hright
  refine ensures_skip fun next => ?_
  split
  · refine ensures_ite (fun _ => ensures_pure (by simp)) fun _ => ensures_skip fun _ => ?_
    refine ensures_skip fun _ => ?_
    refine ensures_optional_else (S := IsBody)
      ((hg.expression _).mono fun n hn => ⟨hn.withField "body", by simp⟩) fun whenTrue hwhenTrue => ?_
    refine ensures_skip fun _ => ensures_bind (hg.expression _) fun whenFalse hwhenFalse => hreturn ?_
    refine ensures_node fun stop => ?_
    exact follows_conditional rfl rfl (by simp) hleft hwhenTrue hwhenFalse
  · refine ensures_ite (fun _ => ensures_pure (by simp)) fun _ => ?_
    refine ensures_bind isOperator_operator fun operator hoperator => ?_
    refine ensures_bind (classDesignator_designator hg) fun type htype => hreturn ?_
    exact hbinary hoperator htype.follows
  · split
    · exact ensures_pure (by simp)
    · refine ensures_ite (fun _ => ensures_pure (by simp)) fun _ => ?_
      refine ensures_bind isOperator_operator fun operator hoperator => ?_
      exact ensures_bind (hg.expression _) fun right hright => hreturn (hbinary hoperator hright)
  · exact ensures_pure (by simp)

theorem expression_follows (level : Nat) : (expression g level).Ensures FollowsGrammar :=
  ensures_bind (operand_follows hg) fun _ hoperand =>
    ensures_extend (fun _ h => operatorStep_follows hg level h) hoperand

omit hg in
theorem nestSequence_follows {items : List Node} (h : ∀ c ∈ items, FollowsGrammar c) :
    (nestSequence items).Ensures fun found => ∀ c ∈ found, FollowsGrammar c := by
  induction items using nestSequence.induct with
  | case1 => exact ensures_pure (by simp)
  | case2 only => exact ensures_pure h
  | case3 first rest hrest ih =>
    rw [nestSequence]
    · refine ensures_bind (ih fun c hc => h c (List.mem_cons_of_mem _ hc)) fun inner hinner => ?_
      have hfirst := h first List.mem_cons_self
      split
      · exact ensures_pure (by simpa using hfirst)
      · rename_i second others
        have hsecond := hinner second List.mem_cons_self
        refine ensures_bind (follows_node rfl (by decide) (by simpa using ⟨hfirst, hsecond⟩)) fun n hn => ?_
        exact ensures_pure (by simpa using hn)
    · exact hrest

theorem sequenceExpression_follows :
    (sequenceExpression g).Ensures fun items => ∀ c ∈ items, FollowsGrammar c :=
  ensures_bind (ensures_commaSeparated (hg.expression _)) fun _ hitems => nestSequence_follows hitems

end Operands

end Namespacer.Grammar
