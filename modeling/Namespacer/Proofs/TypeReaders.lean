import Namespacer.Proofs.NodeShapes
import Namespacer.Proofs.ReaderResults

/-!
# Names, types and attributes are inert

The readers of names, variables, types, attributes and modifiers build nodes in
which nothing is mentioned: a type that is written there is reported by the
declaration that it belongs to.
-/

namespace Namespacer.Grammar

open Reader
open Concrete

variable {kind : String} {start : Nat} {children : List Node}

/-! ## Single nodes -/

theorem inert_leaf (hkind : Shape.ofKind? kind = none) : (leaf kind).Ensures Inert :=
  ensures_leaf fun _ _ => inert_plain hkind rfl (by simp)

theorem inert_node (hkind : Shape.ofKind? kind = none) (hchildren : ∀ c ∈ children, Inert c) :
    (node kind start children).Ensures Inert :=
  ensures_node fun _ => inert_plain hkind rfl hchildren

theorem follows_node (hkind : Shape.ofKind? kind = none) (htext : kind ≠ "text_interpolation")
    (hchildren : ∀ c ∈ children, FollowsGrammar c) :
    (node kind start children).Ensures FollowsGrammar :=
  ensures_node fun _ => follows_plain hkind htext rfl hchildren

theorem isOperator_operator : (operator kind).Ensures IsOperator :=
  ensures_operator fun _ _ => ⟨rfl, rfl, rfl⟩

theorem Aside.of_inert {n : Node} (h : Inert n) {name : String}
    (hname : some name ∈ asideFields) : Aside (n.withField name) :=
  ⟨h.withField name, by simpa using hname⟩

/-! ## Names and variables -/

section Names

theorem inert_name : name.Ensures Inert := by
  refine ensures_skip fun isWord => ensures_ite (fun _ => inert_leaf rfl) fun _ => ?_
  exact ensures_bind ensures_failure fun _ => False.elim

theorem inert_nameSegments : nameSegments.Ensures fun segments => ∀ c ∈ segments, Inert c := by
  apply ensures_collect
  refine ensures_skip fun _ => ensures_skip fun _ => ensures_ite (fun _ => ?_) fun _ => ?_
  · refine ensures_skip fun _ => ensures_bind inert_name fun segment hsegment => ?_
    exact ensures_pure (by simpa using hsegment)
  · exact ensures_pure (by simp)

theorem inert_qualify (hkind : Shape.ofKind? kind = none) {segments : List Node}
    (hsegments : ∀ c ∈ segments, Inert c) :
    (qualify kind start segments).Ensures Inert := by
  unfold qualify
  split
  · rename_i last hlast
    have hinert : Inert last := hsegments last (List.mem_of_getLast? hlast)
    split
    · rename_i first hfirst
      split
      · exact inert_node hkind (by simpa using hinert)
      · have houter : ∀ c ∈ segments.dropLast, Inert c := fun c hc =>
          hsegments c ((List.dropLast_sublist segments).subset hc)
        refine inert_node hkind ?_
        simp only [List.forall_mem_cons, List.not_mem_nil]
        exact ⟨inert_plain rfl rfl houter, hinert, by simp⟩
    · exact ensures_failure
  · exact ensures_failure

theorem inert_qualifiedName : qualifiedName.Ensures Inert := by
  refine ensures_skip fun start => ensures_skip fun isAbsolute => ensures_ite (fun _ => ?_) fun _ => ?_
  · exact ensures_bind inert_nameSegments fun segments h => inert_qualify rfl h
  · refine ensures_skip fun _ => ensures_skip fun _ => ensures_ite (fun _ => ?_) fun _ => ?_
    · refine ensures_skip fun _ => ?_
      exact ensures_bind inert_nameSegments fun segments h => inert_qualify rfl h
    · refine ensures_bind inert_name fun first hfirst => ?_
      refine ensures_bind inert_nameSegments fun segments hsegments => ?_
      split
      · exact ensures_pure hfirst
      · exact inert_qualify rfl (by simpa using ⟨hfirst, hsegments⟩)

theorem kind_name : name.Ensures fun n => n.kind = "name" := by
  refine ensures_skip fun isWord => ensures_ite (fun _ => ensures_leaf fun _ _ => rfl) fun _ => ?_
  exact ensures_bind ensures_failure fun _ => False.elim

theorem kind_qualify (segments : List Node) :
    (qualify kind start segments).Ensures fun n => n.kind = kind := by
  unfold qualify
  split
  · split
    · split
      · exact ensures_node fun _ => rfl
      · exact ensures_node fun _ => rfl
    · exact ensures_failure
  · exact ensures_failure

/-- A qualified name designates a class. -/
theorem designator_qualifiedName : qualifiedName.Ensures IsDesignator := by
  have hkind : qualifiedName.Ensures fun n => n.kind ≠ "arguments" ∧ n.kind ≠ "anonymous_class" := by
    refine ensures_skip fun start => ensures_skip fun isAbsolute =>
      ensures_ite (fun _ => ensures_skip fun segments => ?_) fun _ => ?_
    · exact (kind_qualify segments).mono fun n hn => by simp [hn]
    · refine ensures_skip fun _ => ensures_skip fun _ => ensures_ite (fun _ => ?_) fun _ => ?_
      · refine ensures_skip fun _ => ensures_skip fun segments => ?_
        exact (kind_qualify segments).mono fun n hn => by simp [hn]
      · refine ensures_bind kind_name fun first hfirst => ensures_skip fun segments => ?_
        split
        · exact ensures_pure (by simp [hfirst])
        · exact (kind_qualify _).mono fun n hn => by simp [hn]
  exact (inert_qualifiedName.and hkind).mono fun n hn => ⟨hn.1.1, hn.2⟩

theorem inert_namespaceName : namespaceName.Ensures Inert := by
  refine ensures_skip fun start => ensures_bind inert_name fun first hfirst => ?_
  refine ensures_bind inert_nameSegments fun segments hsegments => ?_
  exact inert_node rfl (by simpa using ⟨hfirst, hsegments⟩)

theorem inert_plainVariable : plainVariable.Ensures Inert := by
  refine ensures_skip fun next => ?_
  split
  · exact inert_leaf rfl
  · exact ensures_failure

end Names

/-! ## Types -/

section Types

variable (isReturned : Bool)

theorem inert_namedType : (namedType isReturned).Ensures Inert := by
  have hnamed (start : Nat) : (qualifiedName >>= fun n => node "named_type" start [n]).Ensures
      Inert :=
    ensures_bind inert_qualifiedName fun n hn => inert_node rfl (by simpa using hn)
  refine ensures_skip fun start => ensures_skip fun isSeparated => ensures_skip fun next => ?_
  split
  · refine ensures_ite (fun _ => hnamed start) fun _ => ?_
    refine ensures_ite (fun _ => inert_leaf rfl) fun _ => ?_
    exact ensures_ite (fun _ => inert_leaf rfl) fun _ => hnamed start
  · exact hnamed start
  · exact ensures_failure

theorem inert_intersection : (intersection isReturned).Ensures Inert := by
  refine ensures_skip fun start => ensures_bind (inert_namedType isReturned) fun first hfirst => ?_
  refine ensures_bind (P := fun rest => ∀ c ∈ rest, Inert c) (ensures_collect ?_) ?_
  · refine ensures_skip fun joins => ensures_ite (fun _ => ?_) fun _ => ensures_pure (by simp)
    refine ensures_skip fun _ => ensures_bind (inert_namedType isReturned) fun next hnext => ?_
    exact ensures_pure (by simpa using hnext)
  · intro rest hrest
    refine ensures_ite (fun _ => ensures_pure hfirst) fun _ => ?_
    exact inert_node rfl (by simpa using ⟨hfirst, hrest⟩)

theorem inert_typeAlternative :
    (typeAlternative isReturned).Ensures fun alternative => Inert alternative.1 := by
  refine ensures_skip fun opens => ensures_ite (fun _ => ?_) fun _ => ?_
  · refine ensures_bind (inert_intersection isReturned) fun inner hinner => ?_
    exact ensures_skip fun _ => ensures_pure hinner
  · exact ensures_bind (inert_intersection isReturned) fun inner hinner => ensures_pure hinner

theorem inert_typeExpression : (typeExpression isReturned).Ensures Inert := by
  refine ensures_skip fun start => ensures_skip fun isOptional => ensures_ite (fun _ => ?_) fun _ => ?_
  · refine ensures_bind (inert_namedType isReturned) fun inner hinner => ?_
    exact inert_node rfl (by simpa using hinner)
  · refine ensures_bind (inert_typeAlternative isReturned) fun first hfirst => ?_
    refine ensures_bind (P := fun rest => ∀ a ∈ rest, Inert a.1) (ensures_collect ?_) ?_
    · refine ensures_skip fun bar => ensures_ite (fun _ => ?_) fun _ => ensures_pure (by simp)
      refine ensures_bind (inert_typeAlternative isReturned) fun next hnext => ?_
      exact ensures_pure (by simpa using hnext)
    · intro rest hrest
      have hall : ∀ c ∈ (first :: rest).map (·.1), Inert c := by
        intro c hc
        obtain ⟨a, ha, rfl⟩ := List.mem_map.mp hc
        rcases List.mem_cons.mp ha with rfl | ha
        · exact hfirst
        · exact hrest a ha
      refine ensures_ite (fun _ => inert_node rfl hall) fun _ => ?_
      exact ensures_ite (fun _ => ensures_pure hfirst) fun _ => inert_node rfl hall

theorem aside_returnType : returnType.Ensures fun types => ∀ c ∈ types, Aside c := by
  refine ensures_skip fun colon => ensures_ite (fun _ => ?_) fun _ => ensures_pure (by simp)
  refine ensures_bind (inert_typeExpression true) fun type htype => ensures_pure ?_
  simpa using Aside.of_inert htype (by decide)

end Types

/-! ## Attributes and modifiers -/

section Modifiers

/-- Attributes and modifiers stand beside everything else, and are no arguments. -/
def Leading (n : Node) : Prop := Aside n ∧ n.kind ≠ "arguments"

theorem leading_attributes : attributes.Ensures fun found => ∀ c ∈ found, Leading c := by
  refine ensures_skip fun start => ensures_skip fun groups => ?_
  refine ensures_ite (fun _ => ensures_pure (by simp)) fun _ => ?_
  refine ensures_bind (P := fun n => Inert n ∧ n.kind = "attribute_list")
    (ensures_node fun _ => ⟨inert_plain rfl rfl (by simp), rfl⟩) fun n hn => ensures_pure ?_
  have hleading : Leading (n.withField "attributes") :=
    ⟨Aside.of_inert hn.1 (by decide), by simp [hn.2]⟩
  simpa using hleading

theorem modifierKind?_plain {keyword : Keyword} (h : modifierKind? keyword = some kind) :
    Shape.ofKind? kind = none ∧ kind ≠ "arguments" := by
  cases keyword <;> simp [modifierKind?] at h <;> subst h <;> decide

theorem leading_modifiers : modifiers.Ensures fun found => ∀ c ∈ found, Leading c := by
  apply ensures_collect
  refine ensures_skip fun next => ?_
  split
  · exact ensures_pure (by simp)
  · rename_i kind hkind
    obtain ⟨keyword, _, hkeyword⟩ := Option.bind_eq_some_iff.mp hkind
    obtain ⟨hplain, harguments⟩ := modifierKind?_plain hkeyword
    have hmodifier (start : Nat) : (node kind start [] >>= fun n => pure (some n)).Ensures
        fun found => ∀ c ∈ found, Leading c := by
      refine ensures_bind (P := Leading) (ensures_node fun stop => ?_) fun n hn => ?_
      · exact ⟨⟨inert_plain hplain rfl (by simp), by simp [asideFields]⟩, harguments⟩
      · exact ensures_pure (by simpa using hn)
    refine ensures_skip fun start => ensures_skip fun _ => ?_
    refine ensures_skip fun _ => ensures_skip fun _ => ensures_skip fun _ => ?_
    refine ensures_ite (fun _ => ?_) fun _ => hmodifier start
    refine ensures_skip fun _ => ensures_skip fun _ => ensures_skip fun _ => hmodifier start

end Modifiers

end Namespacer.Grammar
