import Namespacer.Proofs.ExpressionReaders

/-!
# Declarations follow the grammar

Functions, classes and their members. The hooks of a property and the default
values of parameters are hidden, the members of a class are not.
-/

namespace Namespacer.Grammar

open Reader
open Concrete

variable {g : Nesting} {start : Nat} (hg : g.Follows)
include hg

/-! ## Functions, constants and properties -/

theorem functionDefinition_follows : (functionDefinition g).Ensures FollowsGrammar := by
  refine ensures_skip fun start => ensures_bind leading_attributes fun attributes hattributes => ?_
  refine ensures_skip fun _ => ensures_bind aside_referenceMark fun mark hmark => ?_
  refine ensures_bind inert_name fun name hname => ?_
  refine ensures_bind (parameters_follows hg) fun parameters hparameters => ?_
  refine ensures_bind aside_returnType fun type htype => ?_
  refine ensures_bind (body_follows hg) fun body hbody => ensures_node fun stop => ?_
  have hbefore : ∀ c ∈ attributes ++ mark ++ [name.withField "name"], Aside c := by
    simp only [List.forall_mem_append, List.forall_mem_singleton]
    exact ⟨⟨aside_of_leading hattributes, hmark⟩, Aside.of_inert hname (by decide)⟩
  exact follows_function rfl rfl (by simp) hbefore hparameters.follows hparameters.field hparameters.kind
    (fun c hc => Or.inl (htype c hc)) (Or.inr ⟨body, rfl, hbody.1, hbody.2⟩)

theorem constElement_follows : (constElement g).Ensures FollowsGrammar := by
  refine ensures_skip fun start => ensures_bind inert_name fun name hname => ?_
  refine ensures_skip fun _ => ensures_bind (hg.expression _) fun value hvalue => ?_
  exact follows_node rfl (by decide) (by simpa using ⟨hname.1, hvalue⟩)

theorem constDeclaration_follows {before : List Node} (hbefore : ∀ c ∈ before, Aside c) :
    (constDeclaration g start before).Ensures FollowsGrammar := by
  refine ensures_skip fun _ => ensures_skip fun _ => ensures_skip fun _ => ?_
  refine ensures_optional_else (S := FollowsGrammar)
    ((inert_typeExpression false).mono fun n hn => hn.1.withField "type") fun type htype => ?_
  refine ensures_bind (ensures_commaSeparated (constElement_follows hg)) fun elements helements => ?_
  refine ensures_skip fun _ => follows_node rfl (by decide) ?_
  simp only [List.forall_mem_append]
  exact ⟨⟨fun c hc => (hbefore c hc).inert.1, htype.forall_mem⟩, helements⟩

theorem methodDeclaration_follows {before : List Node} (hbefore : ∀ c ∈ before, Aside c) :
    (methodDeclaration g start before).Ensures FollowsGrammar := by
  refine ensures_skip fun _ => ensures_bind aside_referenceMark fun mark hmark => ?_
  refine ensures_bind inert_name fun name hname => ?_
  refine ensures_bind (parameters_follows hg) fun parameters hparameters => ?_
  refine ensures_bind aside_returnType fun type htype => ensures_skip fun _ => ?_
  have hahead : ∀ c ∈ before ++ mark ++ [name.withField "name"], Aside c := by
    simp only [List.forall_mem_append, List.forall_mem_singleton]
    exact ⟨⟨hbefore, hmark⟩, Aside.of_inert hname (by decide)⟩
  have hnode {bodies : List Node} (hbodies : AtMostOne IsBody bodies) :
      (node "method_declaration" start (before ++ mark ++ [name.withField "name", parameters] ++
        type ++ bodies)).Ensures FollowsGrammar :=
    ensures_node fun stop => follows_function rfl rfl (by simp) hahead hparameters.follows
      hparameters.field hparameters.kind (fun c hc => Or.inl (htype c hc)) hbodies
  refine ensures_ite (fun _ => ?_) fun _ => ?_
  · exact ensures_bind (body_follows hg) fun body hbody => hnode (Or.inr ⟨body, rfl, hbody⟩)
  · exact ensures_skip fun _ => hnode (Or.inl rfl)

theorem propertyElement_follows :
    (propertyElement g).Ensures fun n => FollowsGrammar n ∧ n.kind = "property_element" := by
  refine ensures_skip fun start => ensures_bind inert_plainVariable fun name hname => ?_
  refine ensures_skip fun _ => ?_
  refine ensures_optional (S := FollowsGrammar)
    ((hg.expression _).mono fun n hn => hn.withField "default_value") fun default hdefault => ?_
  refine ensures_node fun stop => ⟨follows_plain rfl (by simp) rfl ?_, rfl⟩
  simpa using ⟨hname.1.withField "name", hdefault.forall_mem⟩

/-- A child of a property declaration: it mentions nothing, is an element or holds hooks. -/
def IsPropertyPart (c : Node) : Prop :=
  Inert c ∨ FollowsGrammar c ∧ (c.kind = "property_element" ∨ isMemberListKind c.kind)

theorem propertyDeclaration_follows {before : List Node} (hbefore : ∀ c ∈ before, Aside c) :
    (propertyDeclaration g start before).Ensures FollowsGrammar := by
  refine ensures_skip fun next => ?_
  extract_lets afterType
  have hafter : ∀ type : List Node, (∀ c ∈ type, Inert c) →
      (afterType type).Ensures FollowsGrammar := by
    intro type htype
    refine ensures_bind (ensures_commaSeparated (propertyElement_follows hg)) fun elements helements => ?_
    have hparts : ∀ c ∈ before ++ type ++ elements, IsPropertyPart c := by
      simp only [List.forall_mem_append]
      exact ⟨⟨fun c hc => Or.inl (hbefore c hc).inert, fun c hc => Or.inl (htype c hc)⟩,
        fun c hc => Or.inr ⟨(helements c hc).1, Or.inl (helements c hc).2⟩⟩
    refine ensures_skip fun _ => ensures_ite (fun _ => ?_) fun _ => ensures_skip fun _ => ?_
    · refine ensures_bind hg.members fun hooks hhooks => ensures_node fun stop => ?_
      refine follows_property rfl rfl ?_
      rw [children_node, List.forall_mem_append, List.forall_mem_singleton]
      exact ⟨hparts, Or.inr ⟨hhooks.1, Or.inr hhooks.2⟩⟩
    · exact ensures_node fun stop => follows_property rfl rfl hparts
  clear_value afterType
  split
  · exact hafter _ (by simp)
  · exact ensures_bind (inert_typeExpression false) fun n hn =>
      hafter _ (by simpa using hn.withField "type")

omit hg in
theorem useDeclaration_follows : useDeclaration.Ensures FollowsGrammar := by
  have hnode (start : Nat) : (node "use_declaration" start []).Ensures FollowsGrammar :=
    follows_node rfl (by decide) (by simp)
  refine ensures_skip fun start => ensures_skip fun _ => ensures_skip fun _ => ensures_skip fun _ => ?_
  refine ensures_ite (fun _ => ?_) fun _ => ?_
  · exact ensures_skip fun _ => ensures_skip fun _ => hnode start
  · exact ensures_skip fun _ => hnode start

theorem enumCase_follows {before : List Node} (hbefore : ∀ c ∈ before, Aside c) :
    (enumCase g start before).Ensures FollowsGrammar := by
  refine ensures_skip fun _ => ensures_bind inert_name fun name hname => ensures_skip fun _ => ?_
  refine ensures_optional (S := FollowsGrammar)
    ((hg.expression _).mono fun n hn => hn.withField "value") fun value hvalue => ?_
  refine ensures_skip fun _ => follows_node rfl (by decide) ?_
  simp only [List.forall_mem_append, List.forall_mem_singleton]
  exact ⟨⟨fun c hc => (hbefore c hc).inert.1, hname.1.withField "name"⟩, hvalue.forall_mem⟩

theorem propertyHook_follows {before : List Node} (hbefore : ∀ c ∈ before, Aside c) :
    (propertyHook g start before).Ensures FollowsGrammar := by
  refine ensures_bind aside_referenceMark fun mark hmark => ?_
  refine ensures_bind inert_name fun name hname => ensures_skip fun _ => ?_
  refine ensures_optional (S := IsParameters) (parameters_follows hg)
    fun parameters hparameters => ensures_skip fun _ => ensures_skip fun _ => ?_
  have hnode {bodies : List Node} (hbodies : ∀ c ∈ bodies, FollowsGrammar c) :
      (node "property_hook" start (before ++ mark ++ [name] ++ parameters ++ bodies)).Ensures
        FollowsGrammar := by
    refine follows_node rfl (by decide) ?_
    simp only [List.forall_mem_append, List.forall_mem_singleton]
    exact ⟨⟨⟨⟨fun c hc => (hbefore c hc).inert.1, fun c hc => (hmark c hc).inert.1⟩, hname.1⟩,
      fun c hc => (hparameters.forall_mem c hc).follows⟩, hbodies⟩
  refine ensures_ite (fun _ => ?_) fun _ => ?_
  · refine ensures_bind (hg.expression _) fun value hvalue => ensures_skip fun _ => ?_
    exact hnode (by simpa using hvalue.withField "body")
  · refine ensures_ite (fun _ => ?_) fun _ => ?_
    · exact ensures_bind (body_follows hg) fun body hbody => hnode (by simpa using hbody.1)
    · exact ensures_skip fun _ => hnode (by simp)

/-! ## Classes -/

theorem memberDeclaration_follows : (memberDeclaration g).Ensures FollowsGrammar := by
  refine ensures_skip fun _ => ensures_ite (fun _ => useDeclaration_follows) fun _ => ?_
  refine ensures_skip fun start => ensures_bind leading_attributes fun attributes hattributes => ?_
  refine ensures_bind leading_modifiers fun modifiers hmodifiers => ensures_skip fun _ => ?_
  have hbefore : ∀ c ∈ attributes ++ modifiers, Aside c :=
    aside_of_leading (List.forall_mem_append.mpr ⟨hattributes, hmodifiers⟩)
  refine ensures_ite (fun _ => propertyHook_follows hg hbefore) fun _ => ensures_skip fun keyword => ?_
  split
  · exact constDeclaration_follows hg hbefore
  · exact methodDeclaration_follows hg hbefore
  · exact enumCase_follows hg hbefore
  · exact propertyDeclaration_follows hg hbefore

theorem memberList_follows :
    (memberList g).Ensures fun n => FollowsGrammar n ∧ isMemberListKind n.kind := by
  refine ensures_skip fun start => ensures_skip fun _ => ?_
  refine ensures_bind (P := fun members => ∀ c ∈ members, FollowsGrammar c) (ensures_collect ?_) ?_
  · refine ensures_skip fun _ => ensures_ite (fun _ => ensures_pure (by simp)) fun _ => ?_
    exact ensures_bind (memberDeclaration_follows hg) fun n hn => ensures_pure (by simpa using hn)
  · intro members hmembers
    refine ensures_skip fun _ => ensures_node fun stop => ?_
    have hkind : isMemberListKind (memberListKind members) = true ∧
        Shape.ofKind? (memberListKind members) = none ∧
        memberListKind members ≠ "text_interpolation" := by
      unfold memberListKind
      split
      · decide
      · split <;> decide
    exact ⟨follows_plain hkind.2.1 hkind.2.2 rfl hmembers, hkind.1⟩

theorem classDeclaration_follows {kind : String} (hkind : Shape.ofKind? kind = some .declaration)
    {before : List Node} (hbefore : ∀ c ∈ before, Aside c) :
    (classDeclaration g kind start before).Ensures FollowsGrammar := by
  refine ensures_skip fun _ => ensures_bind inert_name fun name hname => ?_
  refine ensures_bind (inert_typeClause .extends_ rfl) fun base hbase => ?_
  refine ensures_bind (inert_typeClause .implements_ rfl) fun interfaces hinterfaces => ?_
  refine ensures_bind (classBody_isClassBody hg) fun body hbody => ensures_node fun stop => ?_
  refine follows_declaration hkind rfl rfl ?_ hbody.1
  simp only [List.forall_mem_append, List.forall_mem_singleton]
  exact ⟨⟨⟨fun c hc => (hbefore c hc).inert, hname.withField "name"⟩, hbase⟩, hinterfaces⟩

theorem enumDeclaration_follows {before : List Node} (hbefore : ∀ c ∈ before, Aside c) :
    (enumDeclaration g start before).Ensures FollowsGrammar := by
  refine ensures_skip fun _ => ensures_bind inert_name fun name hname => ensures_skip fun _ => ?_
  refine ensures_optional (S := Inert) (inert_typeExpression false) fun backing hbacking => ?_
  refine ensures_bind (inert_typeClause .implements_ rfl) fun interfaces hinterfaces => ?_
  refine ensures_bind hg.members fun list hlist => ?_
  obtain ⟨mark, kind, named, field, bodyStart, bodyStop, members⟩ := list
  have hmembers : ∀ c ∈ members, FollowsGrammar c := fun c hc => hlist.1.of_mem_children hc
  have hbody : FollowsGrammar
      (.node mark "enum_declaration_list" named (some "body") bodyStart bodyStop members) := by
    cases named with
    | true => exact follows_plain rfl (by simp) rfl hmembers
    | false => exact follows_of_childless (hlist.1.fits.token rfl)
  refine ensures_node fun stop => follows_declaration rfl rfl rfl ?_ ⟨hbody, rfl⟩
  simp only [List.forall_mem_append, List.forall_mem_singleton]
  exact ⟨⟨⟨fun c hc => (hbefore c hc).inert, hname.withField "name"⟩, hbacking.forall_mem⟩, hinterfaces⟩

theorem typeDeclaration_follows {attributes : List Node}
    (hattributes : ∀ c ∈ attributes, Leading c) :
    (typeDeclaration g start attributes).Ensures FollowsGrammar := by
  refine ensures_bind leading_modifiers fun modifiers hmodifiers => ensures_skip fun keyword => ?_
  have hbefore : ∀ c ∈ attributes ++ modifiers, Aside c :=
    aside_of_leading (List.forall_mem_append.mpr ⟨hattributes, hmodifiers⟩)
  split
  · exact classDeclaration_follows hg rfl hbefore
  · exact classDeclaration_follows hg rfl hbefore
  · exact classDeclaration_follows hg rfl hbefore
  · exact enumDeclaration_follows hg hbefore
  · exact ensures_failure

end Namespacer.Grammar
