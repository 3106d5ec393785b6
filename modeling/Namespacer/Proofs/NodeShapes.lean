import Namespacer.Proofs.GrammarTrees

/-!
# Nodes that follow the grammar, one shape at a time

For each shape, the children that a node of this shape may have to be where the
grammar has them. A reader has nothing else to show than that the nodes it
builds have such children.
-/

namespace Namespacer.Concrete

variable {μ : Type} {mark : μ} {kind : String} {field : Option String}
  {start stop : Nat} {children : List (Concrete μ)}

@[simp] theorem kind_node (named : Bool) :
    (node mark kind named field start stop children).kind = kind := rfl

@[simp] theorem field_node (named : Bool) :
    (node mark kind named field start stop children).field = field := rfl

@[simp] theorem named_node (named : Bool) :
    (node mark kind named field start stop children).named = named := rfl

@[simp] theorem children_node (named : Bool) :
    (node mark kind named field start stop children).children = children := rfl

@[simp] theorem visible_node (named : Bool) :
    (node mark kind named field start stop children).visible = children.filter isVisible := rfl

@[simp] theorem childAt?_node (named : Bool) (name : String) :
    (node mark kind named field start stop children).childAt? name =
      children.find? (·.field == some name) := rfl

@[simp] theorem kind_withField (name : String) (n : Concrete μ) : (n.withField name).kind = n.kind := by
  cases n
  rfl

@[simp] theorem field_withField (name : String) (n : Concrete μ) :
    (n.withField name).field = some name := by
  cases n
  rfl

@[simp] theorem named_withField (name : String) (n : Concrete μ) :
    (n.withField name).named = n.named := by
  cases n
  rfl

@[simp] theorem children_withField (name : String) (n : Concrete μ) :
    (n.withField name).children = n.children := by
  cases n
  rfl

@[simp] theorem visible_withField (name : String) (n : Concrete μ) :
    (n.withField name).visible = n.visible := by
  rw [visible, visible, children_withField]

/-! ## Any node -/

theorem FollowsGrammar.fits {n : Concrete μ} (h : FollowsGrammar n) : Fits n := by
  obtain ⟨_, hfits, _⟩ := h
  exact hfits

theorem FollowsGrammar.of_mem_children {n c : Concrete μ} (h : FollowsGrammar n)
    (hc : c ∈ n.children) : FollowsGrammar c := by
  obtain ⟨_, _, hchildren⟩ := h
  exact hchildren c hc

/-- A node without children follows the grammar whatever its kind is. -/
theorem follows_of_childless {n : Concrete μ} (h : n.children = []) : FollowsGrammar n := by
  have hvisible : n.visible = [] := by rw [visible, h, List.filter_nil]
  refine ⟨n, ⟨fun _ => h, fun hkind => ⟨n, by rw [hkind]; rfl, ?_⟩, ?_, ?_⟩, ?_⟩ <;>
    simp [h, hvisible]

/-- Which children have a place depends on the kind and the children of a node alone. -/
theorem HasPlace.congr {n m c : Concrete μ} {shape : Shape} (h : HasPlace n c shape)
    (hchildren : n.children = m.children) : HasPlace m c shape := by
  cases n
  cases m
  simp only [children_node] at hchildren
  subst hchildren
  cases shape <;> exact h

theorem IsPlain.congr {n m : Concrete μ} (h : IsPlain n) (hkind : n.kind = m.kind)
    (hchildren : n.children = m.children) : IsPlain m := by
  obtain ⟨_, hshape, hplain⟩ := h
  refine ⟨m, hkind ▸ hshape, ?_⟩
  rw [visible, ← hchildren, ← hkind]
  exact hplain

theorem FollowsGrammar.congr {n m : Concrete μ} (h : FollowsGrammar n) (hkind : n.kind = m.kind)
    (hnamed : n.named = m.named) (hchildren : n.children = m.children) : FollowsGrammar m := by
  have hvisible : n.visible = m.visible := by rw [visible, visible, hchildren]
  obtain ⟨_, ⟨htoken, hinterpolation, hplaces, hcreation⟩, hbelow⟩ := h
  refine ⟨m, ⟨?_, ?_, ?_, ?_⟩, hchildren ▸ hbelow⟩
  · rw [← hnamed, ← hchildren]
    exact htoken
  · intro hm
    exact (hinterpolation (hkind.trans hm)).congr hkind hchildren
  · intro shape hshape c hc
    exact (hplaces shape (hkind ▸ hshape) c (hvisible ▸ hc)).imp_right (·.congr hchildren)
  · rw [← hkind, ← hvisible]
    exact hcreation

theorem FollowsGrammar.withField {n : Concrete μ} (h : FollowsGrammar n) (name : String) :
    FollowsGrammar (n.withField name) :=
  h.congr (by simp) (by simp) (by simp)

/-! ## Plain nodes -/

/-- A node that follows the grammar and is plain. -/
def Inert (n : Concrete μ) : Prop := FollowsGrammar n ∧ IsPlain n

theorem Inert.withField {n : Concrete μ} (h : Inert n) (name : String) :
    Inert (n.withField name) :=
  ⟨h.1.withField name, h.2.congr (by simp) (by simp)⟩

/-- A node without a shape follows the grammar if its children do. -/
theorem follows_plain {n : Concrete μ} (hkind : Shape.ofKind? n.kind = none)
    (htext : n.kind ≠ "text_interpolation") (hnamed : n.named = true)
    (hchildren : ∀ c ∈ n.children, FollowsGrammar c) : FollowsGrammar n := by
  refine ⟨n, ⟨by simp [hnamed], fun h => absurd h htext, ?_, ?_⟩, hchildren⟩ <;> simp [hkind]

/-- A node without a shape is inert if its children are. -/
theorem inert_plain {n : Concrete μ} (hkind : Shape.ofKind? n.kind = none) (hnamed : n.named = true)
    (hchildren : ∀ c ∈ n.children, Inert c) : Inert n := by
  have hplain : IsPlain n :=
    ⟨n, hkind, fun _ c hc => (hchildren c (mem_children_of_mem_visible hc)).2⟩
  refine ⟨⟨n, ⟨by simp [hnamed], fun _ => hplain, ?_, ?_⟩, fun c hc => (hchildren c hc).1⟩, hplain⟩ <;>
    simp [hkind]

/-! ## Nodes with a shape -/

variable {n : Concrete μ}

theorem follows_of_shape {shape : Shape} (hshape : Shape.ofKind? n.kind = some shape)
    (hcreation : shape ≠ .creation) (hnamed : n.named = true)
    (hchildren : ∀ c ∈ n.children, FollowsGrammar c)
    (hplaces : ∀ c ∈ n.visible, IsPlain c ∨ HasPlace n c shape) : FollowsGrammar n := by
  refine ⟨n, ⟨by simp [hnamed], ?_, ?_, ?_⟩, hchildren⟩
  · intro hkind
    rw [hkind] at hshape
    cases hshape
  · intro other hother
    rw [hshape] at hother
    cases hother
    exact hplaces
  · intro hother
    rw [hshape] at hother
    cases hother
    exact absurd rfl hcreation

theorem childAt?_append {field : String} (before : List (Concrete μ)) {after : List (Concrete μ)}
    {c : Concrete μ} (hchildren : n.children = before ++ c :: after)
    (hbefore : ∀ d ∈ before, d.field ≠ some field) (hc : c.field = some field) :
    n.childAt? field = some c := by
  have hnone : before.find? (·.field == some field) = none := by
    rw [List.find?_eq_none]
    intro d hd
    simpa using hbefore d hd
  rw [childAt?, hchildren, List.find?_append, hnone, Option.none_or]
  simp [hc]

theorem visible_eq_singleton {c : Concrete μ} (hlength : n.children.length ≤ 1)
    (hc : c ∈ n.visible) : n.visible = [c] :=
  eq_singleton_of_mem (Nat.le_trans (List.length_filter_le _ _) hlength) hc

theorem follows_single {shape : Shape} (hshape : Shape.ofKind? n.kind = some shape)
    (hsingle : shape = .throwing ∨ shape = .returning ∨ shape = .statement)
    (hnamed : n.named = true) (hlength : n.children.length ≤ 1)
    (hchildren : ∀ c ∈ n.children, FollowsGrammar c) : FollowsGrammar n := by
  have hcreation : shape ≠ .creation := by
    rintro rfl
    simp at hsingle
  refine follows_of_shape hshape hcreation hnamed hchildren fun c hc => Or.inr ?_
  rcases hsingle with rfl | rfl | rfl <;> simp [HasPlace, visible_eq_singleton hlength hc]

/-- Nodes of some shapes may have children of every kind. -/
theorem follows_open {shape : Shape} (hshape : Shape.ofKind? n.kind = some shape)
    (hopen : shape = .printing ∨ shape = .element ∨ shape = .scopedAccess) (hnamed : n.named = true)
    (hchildren : ∀ c ∈ n.children, FollowsGrammar c) : FollowsGrammar n := by
  have hcreation : shape ≠ .creation := by
    rintro rfl
    simp at hopen
  refine follows_of_shape hshape hcreation hnamed hchildren fun c _ => Or.inr ?_
  rcases hopen with rfl | rfl | rfl <;> trivial

/-! ## Operators and calls -/

/-- The node of an operator between its operands. -/
structure IsOperator (o : Concrete μ) : Prop where
  named : o.named = false
  field : o.field = some "operator"
  childless : o.children = []

theorem IsOperator.follows {o : Concrete μ} (h : IsOperator o) : FollowsGrammar o :=
  follows_of_childless h.childless

theorem IsOperator.not_visible {o : Concrete μ} (h : IsOperator o) : o ∉ n.visible := by
  intro ho
  have hvisible := (List.mem_filter.mp ho).2
  simp [isVisible, h.named] at hvisible

section Operands

variable {left right : Concrete μ} (between : List (Concrete μ))

/-- The operands of a node, where nothing but operators stands between them. -/
theorem follows_operands {shape : Shape} (hshape : Shape.ofKind? n.kind = some shape)
    (hoperands : shape = .binary ∨ shape = .assignment) (hnamed : n.named = true)
    (hchildren : n.children = left.withField "left" :: (between ++ [right.withField "right"]))
    (hleft : FollowsGrammar left) (hbetween : ∀ o ∈ between, IsOperator o)
    (hright : FollowsGrammar right) : FollowsGrammar n := by
  have hcreation : shape ≠ .creation := by
    rintro rfl
    simp at hoperands
  have hl : n.childAt? "left" = some (left.withField "left") :=
    childAt?_append [] hchildren (by simp) (by simp)
  have hr : n.childAt? "right" = some (right.withField "right") := by
    refine childAt?_append (left.withField "left" :: between) hchildren ?_ (by simp)
    intro d hd
    rcases List.mem_cons.mp hd with rfl | hd
    · simp
    · simp [(hbetween d hd).field]
  refine follows_of_shape hshape hcreation hnamed ?_ fun c hc => Or.inr ?_
  · rw [hchildren]
    intro c hc
    rw [List.mem_cons, List.mem_append, List.mem_singleton] at hc
    rcases hc with rfl | h | rfl
    · exact hleft.withField "left"
    · exact (hbetween c h).follows
    · exact hright.withField "right"
  · have hmem := mem_children_of_mem_visible hc
    rw [hchildren, List.mem_cons, List.mem_append, List.mem_singleton] at hmem
    rcases hmem with rfl | h | rfl
    · rcases hoperands with rfl | rfl <;> exact Or.inl hl
    · exact absurd hc (hbetween c h).not_visible
    · rcases hoperands with rfl | rfl <;> exact Or.inr hr

end Operands

theorem follows_prefixed {operator argument : Concrete μ}
    (hshape : Shape.ofKind? n.kind = some .prefixed) (hnamed : n.named = true)
    (hchildren : n.children = [operator, argument.withField "argument"])
    (hoperator : IsOperator operator) (hargument : FollowsGrammar argument) : FollowsGrammar n := by
  have hat : n.childAt? "argument" = some (argument.withField "argument") :=
    childAt?_append [operator] hchildren (by simp [hoperator.field]) (by simp)
  refine follows_of_shape hshape (by decide) hnamed ?_ fun c hc => ?_
  · rw [hchildren]
    simp [hoperator.follows, hargument.withField "argument"]
  · have hmem := mem_children_of_mem_visible hc
    simp only [hchildren, List.mem_cons, List.not_mem_nil, or_false] at hmem
    rcases hmem with rfl | rfl
    · exact absurd hc hoperator.not_visible
    · exact Or.inr (by simp [HasPlace, hat])

section Calls

variable {subject name arguments : Concrete μ}

/-- The arguments of a call, as its child. -/
structure IsArgumentList (arguments : Concrete μ) : Prop where
  follows : FollowsGrammar arguments
  kind : arguments.kind = "arguments"

theorem IsArgumentList.shapeless (h : IsArgumentList arguments) (name : String) :
    Shape.ofKind? (arguments.withField name).kind = none := by
  rw [kind_withField, h.kind]
  rfl

theorem follows_call (hshape : Shape.ofKind? n.kind = some .call) (hnamed : n.named = true)
    (hchildren : n.children = [subject.withField "function", arguments.withField "arguments"])
    (hsubject : FollowsGrammar subject) (harguments : IsArgumentList arguments) :
    FollowsGrammar n := by
  refine follows_of_shape hshape (by decide) hnamed ?_ fun c hc => Or.inr ?_
  · rw [hchildren]
    simp [hsubject.withField "function", harguments.follows.withField "arguments"]
  · have hmem := mem_children_of_mem_visible hc
    simp only [hchildren, List.mem_cons, List.not_mem_nil, or_false] at hmem
    rcases hmem with rfl | rfl
    · exact Or.inl (by simp [childAt?, hchildren])
    · exact Or.inr ⟨by simp [childAt?, hchildren], harguments.shapeless _⟩

theorem follows_memberAccess (hshape : Shape.ofKind? n.kind = some .memberAccess)
    (hnamed : n.named = true) (hchildren : n.children = [subject.withField "object", name])
    (hsubject : FollowsGrammar subject) (hname : FollowsGrammar name)
    (hfield : name.field = some "name") : FollowsGrammar n := by
  refine follows_of_shape hshape (by decide) hnamed ?_ fun c hc => Or.inr ?_
  · rw [hchildren]
    simp [hsubject.withField "object", hname]
  · have hmem := mem_children_of_mem_visible hc
    simp only [hchildren, List.mem_cons, List.not_mem_nil, or_false] at hmem
    rcases hmem with rfl | rfl
    · exact Or.inl (by simp [childAt?, hchildren])
    · exact Or.inr hfield

theorem follows_memberCall (hshape : Shape.ofKind? n.kind = some .memberCall)
    (hnamed : n.named = true)
    (hchildren : n.children = [subject.withField "object", name, arguments.withField "arguments"])
    (hsubject : FollowsGrammar subject) (hname : FollowsGrammar name)
    (hfield : name.field = some "name") (harguments : IsArgumentList arguments) :
    FollowsGrammar n := by
  refine follows_of_shape hshape (by decide) hnamed ?_ fun c hc => Or.inr ?_
  · rw [hchildren]
    simp [hsubject.withField "object", hname, harguments.follows.withField "arguments"]
  · have hmem := mem_children_of_mem_visible hc
    simp only [hchildren, List.mem_cons, List.not_mem_nil, or_false] at hmem
    rcases hmem with rfl | rfl | rfl
    · exact Or.inl (by simp [childAt?, hchildren])
    · exact Or.inr (Or.inl hfield)
    · exact Or.inr (Or.inr ⟨by simp [childAt?, hchildren, hfield], harguments.shapeless _⟩)

theorem follows_scopedCall (hshape : Shape.ofKind? n.kind = some .scopedCall)
    (hnamed : n.named = true)
    (hchildren : n.children = [subject.withField "scope", name, arguments.withField "arguments"])
    (hsubject : FollowsGrammar subject) (hname : FollowsGrammar name)
    (hfield : name.field = some "name") (harguments : IsArgumentList arguments) :
    FollowsGrammar n := by
  refine follows_of_shape hshape (by decide) hnamed ?_ fun c hc => Or.inr ?_
  · rw [hchildren]
    simp [hsubject.withField "scope", hname, harguments.follows.withField "arguments"]
  · have hmem := mem_children_of_mem_visible hc
    simp only [hchildren, List.mem_cons, List.not_mem_nil, or_false] at hmem
    rcases hmem with rfl | rfl | rfl
    · exact Or.inl (by simp)
    · exact Or.inl (by simp [hfield])
    · exact Or.inr ⟨by simp [childAt?, hchildren, hfield], harguments.shapeless _⟩

end Calls

/-! ## Bodies and clauses -/

theorem follows_conditional {condition whenFalse : Concrete μ} {whenTrue : List (Concrete μ)}
    (hshape : Shape.ofKind? n.kind = some .conditional) (hnamed : n.named = true)
    (hchildren : n.children =
      condition.withField "condition" :: (whenTrue ++ [whenFalse.withField "alternative"]))
    (hcondition : FollowsGrammar condition)
    (hwhenTrue : whenTrue = [] ∨ ∃ b, whenTrue = [b] ∧ FollowsGrammar b ∧ b.field = some "body")
    (hwhenFalse : FollowsGrammar whenFalse) : FollowsGrammar n := by
  have hfollows : ∀ c ∈ n.children, FollowsGrammar c := by
    rw [hchildren]
    rcases hwhenTrue with rfl | ⟨b, rfl, hb, _⟩
    · simp [hcondition.withField "condition", hwhenFalse.withField "alternative"]
    · simp [hcondition.withField "condition", hb, hwhenFalse.withField "alternative"]
  have hat : ∀ c ∈ n.children, HasPlace n c .conditional := by
    rw [hchildren]
    simp only [HasPlace, childAt?, hchildren]
    rcases hwhenTrue with rfl | ⟨b, rfl, _, hb⟩
    · simp
    · simp [hb]
  exact follows_of_shape hshape (by decide) hnamed hfollows fun c hc =>
    Or.inr (hat c (mem_children_of_mem_visible hc))

theorem follows_ifThen {condition body : Concrete μ} {others : List (Concrete μ)}
    (hshape : Shape.ofKind? n.kind = some .ifThen) (hnamed : n.named = true)
    (hchildren : n.children = condition :: body :: others) (hcondition : FollowsGrammar condition)
    (hconditionAt : condition.field = some "condition") (hbody : FollowsGrammar body)
    (hfield : body.field = some "body")
    (hothers : ∀ c ∈ others, Inert c ∨ FollowsGrammar c ∧ c.field = some "alternative") :
    FollowsGrammar n := by
  refine follows_of_shape hshape (by decide) hnamed ?_ fun c hc => ?_
  · intro c hc
    rw [hchildren, List.mem_cons, List.mem_cons] at hc
    rcases hc with rfl | rfl | hc
    · exact hcondition
    · exact hbody
    · exact (hothers c hc).elim (·.1) (·.1)
  · have hmem := mem_children_of_mem_visible hc
    rw [hchildren, List.mem_cons, List.mem_cons] at hmem
    rcases hmem with rfl | rfl | hmem
    · exact Or.inr (Or.inl (by simp [childAt?, hchildren, hconditionAt]))
    · exact Or.inr (Or.inr (Or.inl (by simp [childAt?, hchildren, hconditionAt, hfield])))
    · exact (hothers c hmem).imp (·.2) fun h => Or.inr (Or.inr h.2)

theorem follows_elseBranch {body : Concrete μ} (hshape : Shape.ofKind? n.kind = some .elseBranch)
    (hnamed : n.named = true) (hchildren : n.children = [body]) (hbody : FollowsGrammar body)
    (hfield : body.field = some "body") : FollowsGrammar n := by
  refine follows_of_shape hshape (by decide) hnamed (by simpa [hchildren] using hbody) fun c hc => ?_
  have hmem := mem_children_of_mem_visible hc
  rw [hchildren, List.mem_singleton] at hmem
  exact Or.inr (by simp [HasPlace, childAt?, hchildren, hfield, hmem])

/-- The fields of the nodes that stand beside the parts of a declaration. -/
def asideFields : List (Option String) :=
  [none, some "attributes", some "reference_modifier", some "static_modifier",
    some "return_type", some "name", some "type"]

/-- A plain node that stands beside the parts of a declaration. -/
structure Aside (n : Concrete μ) : Prop where
  inert : Inert n
  field : n.field ∈ asideFields

theorem Aside.field_ne {c : Concrete μ} (h : Aside c) {name : String}
    (hname : some name ∉ asideFields) : c.field ≠ some name := by
  intro heq
  exact hname (heq ▸ h.field)

theorem follows_catchClause {before : List (Concrete μ)} {body : Concrete μ}
    (hshape : Shape.ofKind? n.kind = some .catchClause) (hnamed : n.named = true)
    (hchildren : n.children = before ++ [body]) (hbefore : ∀ c ∈ before, Aside c)
    (hbody : FollowsGrammar body) (hfield : body.field = some "body") : FollowsGrammar n := by
  refine follows_of_shape hshape (by decide) hnamed ?_ fun c hc => ?_
  · intro c hc
    rw [hchildren, List.mem_append, List.mem_singleton] at hc
    rcases hc with hc | rfl
    · exact (hbefore c hc).inert.1
    · exact hbody
  · have hmem := mem_children_of_mem_visible hc
    rw [hchildren, List.mem_append, List.mem_singleton] at hmem
    rcases hmem with hmem | rfl
    · exact Or.inl (hbefore c hmem).inert.2
    · exact Or.inr
        (childAt?_append before hchildren (fun c hc => (hbefore c hc).field_ne (by decide)) hfield)

/-- The variables that a closure takes with it. -/
structure IsCapture (c : Concrete μ) : Prop where
  follows : FollowsGrammar c
  field : c.field = none
  kind : c.kind = "anonymous_function_use_clause"

theorem follows_function {before between bodies : List (Concrete μ)} {parameters : Concrete μ}
    (hshape : Shape.ofKind? n.kind = some .function) (hnamed : n.named = true)
    (hchildren : n.children = before ++ parameters :: (between ++ bodies))
    (hbefore : ∀ c ∈ before, Aside c) (hparameters : FollowsGrammar parameters)
    (hparametersAt : parameters.field = some "parameters")
    (hkind : parameters.kind = "formal_parameters")
    (hbetween : ∀ c ∈ between, Aside c ∨ IsCapture c)
    (hbodies : bodies = [] ∨ ∃ b, bodies = [b] ∧ FollowsGrammar b ∧ b.field = some "body") :
    FollowsGrammar n := by
  refine follows_of_shape hshape (by decide) hnamed ?_ fun c hc => ?_
  · intro c hc
    simp only [hchildren, List.mem_append, List.mem_cons] at hc
    rcases hc with hc | rfl | hc | hc
    · exact (hbefore c hc).inert.1
    · exact hparameters
    · exact (hbetween c hc).elim (·.inert.1) (·.follows)
    · rcases hbodies with rfl | ⟨b, rfl, hb, _⟩
      · cases hc
      · rwa [List.mem_singleton.mp hc]
  · have hmem := mem_children_of_mem_visible hc
    simp only [hchildren, List.mem_append, List.mem_cons] at hmem
    rcases hmem with hmem | rfl | hmem | hmem
    · exact Or.inl (hbefore c hmem).inert.2
    · refine Or.inr (Or.inl ⟨?_, by rw [hkind]; rfl⟩)
      exact childAt?_append before hchildren (fun c hc => (hbefore c hc).field_ne (by decide))
        hparametersAt
    · exact (hbetween c hmem).imp (·.inert.2) fun h => Or.inr (Or.inr h.kind)
    · rcases hbodies with rfl | ⟨b, rfl, _, hb⟩
      · cases hmem
      · rw [List.mem_singleton] at hmem
        subst hmem
        have hlast : n.children = (before ++ parameters :: between) ++ [c] := by simp [hchildren]
        refine Or.inr (Or.inr (Or.inl (childAt?_append (before ++ parameters :: between) hlast ?_ hb)))
        intro d hd
        rw [List.mem_append, List.mem_cons] at hd
        rcases hd with hd | rfl | hd
        · exact (hbefore d hd).field_ne (by decide)
        · simp [hparametersAt]
        · rcases hbetween d hd with haside | hcapture
          · exact haside.field_ne (by decide)
          · simp [hcapture.field]

/-! ## Declarations -/

theorem follows_parameter (hshape : Shape.ofKind? n.kind = some .parameter) (hnamed : n.named = true)
    (hchildren : ∀ c ∈ n.children, Inert c ∨
      FollowsGrammar c ∧ (c.field = some "default_value" ∨ isMemberListKind c.kind)) :
    FollowsGrammar n :=
  follows_of_shape hshape (by decide) hnamed (fun c hc => (hchildren c hc).elim (·.1) (·.1))
    fun c hc => (hchildren c (mem_children_of_mem_visible hc)).imp (·.2) (·.2)

theorem follows_property (hshape : Shape.ofKind? n.kind = some .property) (hnamed : n.named = true)
    (hchildren : ∀ c ∈ n.children, Inert c ∨
      FollowsGrammar c ∧ (c.kind = "property_element" ∨ isMemberListKind c.kind)) :
    FollowsGrammar n :=
  follows_of_shape hshape (by decide) hnamed (fun c hc => (hchildren c hc).elim (·.1) (·.1))
    fun c hc => (hchildren c (mem_children_of_mem_visible hc)).imp (·.2) (·.2)

/-- The members of a class between braces. -/
structure IsClassBody (c : Concrete μ) : Prop where
  follows : FollowsGrammar c
  kind : holdsMembers c.kind = true

/-- A list of members that comes last is the one that counts. -/
theorem memberList?_of_last {before : List (Concrete μ)} {body : Concrete μ}
    (hchildren : n.children = before ++ [body]) (hbody : IsClassBody body) (hvisible : body ∈ n.visible) :
    n.memberList? = some body := by
  have hv := (List.mem_filter.mp hvisible).2
  rw [memberList?, visible, hchildren, List.filter_append, List.filter_cons_of_pos hv, List.filter_nil,
    List.filter_append, List.filter_cons_of_pos (by simp [hbody.kind]), List.filter_nil,
    List.getLast?_append]
  rfl

theorem follows_declaration {before : List (Concrete μ)} {body : Concrete μ}
    (hshape : Shape.ofKind? n.kind = some .declaration) (hnamed : n.named = true)
    (hchildren : n.children = before ++ [body]) (hbefore : ∀ c ∈ before, Inert c)
    (hbody : IsClassBody body) : FollowsGrammar n := by
  refine follows_of_shape hshape (by decide) hnamed ?_ fun c hc => ?_
  · intro c hc
    rw [hchildren, List.mem_append, List.mem_singleton] at hc
    rcases hc with hc | rfl
    · exact (hbefore c hc).1
    · exact hbody.follows
  · have hmem := mem_children_of_mem_visible hc
    rw [hchildren, List.mem_append, List.mem_singleton] at hmem
    rcases hmem with hmem | rfl
    · exact Or.inl (hbefore c hmem).2
    · exact Or.inr (memberList?_of_last hchildren hbody hc)

/-- A class declared on the spot: everything before its members is inert but for the arguments of
the creation. -/
theorem isAnonymousClass_of_children {before : List (Concrete μ)} {body : Concrete μ}
    (hchildren : n.children = before ++ [body]) (hbody : IsClassBody body)
    (hbefore : ∀ d ∈ before, d.isVisible = true → Inert d ∨
      d.kind = "arguments" ∧ n.visible.find? (·.kind == "arguments") = some d) :
    IsAnonymousClass n := by
  intro d hd
  have hmem := mem_children_of_mem_visible hd
  rw [hchildren, List.mem_append, List.mem_singleton] at hmem
  rcases hmem with hmem | rfl
  · exact (hbefore d hmem (List.mem_filter.mp hd).2).imp (·.2) Or.inr
  · exact Or.inr (Or.inl (memberList?_of_last hchildren hbody hd))

theorem follows_creation_of_visible (hshape : Shape.ofKind? n.kind = some .creation)
    (hnamed : n.named = true) (hchildren : ∀ c ∈ n.children, FollowsGrammar c)
    (hplaces : ∀ c ∈ n.visible, c.kind = "anonymous_class" → IsAnonymousClass c)
    (hwhat : (n.visible.filter (saysWhat ·.kind)).length ≤ 1)
    (harguments : (n.visible.filter (givesArguments ·.kind)).length ≤ 1) : FollowsGrammar n := by
  refine ⟨n, ⟨by simp [hnamed], ?_, ?_, fun _ => ⟨hwhat, harguments⟩⟩, hchildren⟩
  · intro hkind
    rw [hkind] at hshape
    cases hshape
  · intro other hother c hc
    rw [hshape] at hother
    cases hother
    by_cases hkind : c.kind = "anonymous_class"
    · exact Or.inr (Or.inr (hplaces c hc hkind))
    · exact Or.inr (Or.inl hkind)

/-- The creation of an object of a class declared on the spot. -/
theorem follows_creation_anonymous {declared : Concrete μ}
    (hshape : Shape.ofKind? n.kind = some .creation) (hnamed : n.named = true)
    (hchildren : n.children = [declared]) (hdeclared : FollowsGrammar declared)
    (hclass : IsAnonymousClass declared) : FollowsGrammar n := by
  have hlength (p : Concrete μ → Bool) : (n.visible.filter p).length ≤ 1 :=
    Nat.le_trans (List.length_filter_le _ _)
      (Nat.le_trans (List.length_filter_le _ _) (by simp [hchildren]))
  refine follows_creation_of_visible hshape hnamed (by simpa [hchildren] using hdeclared) ?_
    (hlength _) (hlength _)
  intro c hc _
  have hmem := mem_children_of_mem_visible hc
  rw [hchildren, List.mem_singleton] at hmem
  rwa [hmem]

/-- What designates the class of an object that is created. -/
structure IsDesignator (c : Concrete μ) : Prop where
  follows : FollowsGrammar c
  kind : c.kind ≠ "arguments" ∧ c.kind ≠ "anonymous_class"

theorem IsDesignator.of_shape {shape : Shape} (hshape : Shape.ofKind? n.kind = some shape)
    (hfollows : FollowsGrammar n) : IsDesignator n := by
  refine ⟨hfollows, ?_, ?_⟩
  · intro hkind
    rw [hkind] at hshape
    cases hshape
  · intro hkind
    rw [hkind] at hshape
    cases hshape

/-- The creation of an object of a class that is designated, with arguments or without. -/
theorem follows_creation {designator : Concrete μ} {arguments : List (Concrete μ)}
    (hshape : Shape.ofKind? n.kind = some .creation) (hnamed : n.named = true)
    (hchildren : n.children = designator :: arguments) (hdesignator : IsDesignator designator)
    (harguments : arguments = [] ∨ ∃ a, arguments = [a] ∧ IsArgumentList a) : FollowsGrammar n := by
  have hrest : ∀ c ∈ arguments, IsArgumentList c := by
    rcases harguments with rfl | ⟨a, rfl, ha⟩
    · simp
    · simpa using ha
  have hlength : arguments.length ≤ 1 := by rcases harguments with rfl | ⟨a, rfl, _⟩ <;> simp
  have hsublist (p : Concrete μ → Bool) :
      (n.visible.filter p).Sublist ((designator :: arguments).filter p) := by
    rw [← hchildren]
    exact List.filter_sublist.filter p
  refine follows_creation_of_visible hshape hnamed ?_ ?_ ?_ ?_
  · rw [hchildren]
    intro c hc
    rcases List.mem_cons.mp hc with rfl | hc
    · exact hdesignator.follows
    · exact (hrest c hc).follows
  · intro c hc hkind
    have hmem := mem_children_of_mem_visible hc
    rw [hchildren] at hmem
    rcases List.mem_cons.mp hmem with rfl | hmem
    · exact absurd hkind hdesignator.kind.2
    · simp [(hrest c hmem).kind] at hkind
  · -- Arguments say nothing about what is created.
    have hnone : arguments.filter (saysWhat ·.kind) = [] := by
      rw [List.filter_eq_nil_iff]
      intro c hc
      simp [(hrest c hc).kind, saysWhat, isNameKind]
    refine Nat.le_trans (hsublist _).length_le ?_
    rw [List.filter_cons, hnone]
    split <;> simp
  · refine Nat.le_trans (hsublist _).length_le ?_
    rw [List.filter_cons_of_neg (by simp [givesArguments, hdesignator.kind])]
    exact Nat.le_trans (List.length_filter_le _ _) hlength

/-- A clause behind a block whose errors are caught, or text between such clauses. -/
def IsClause (c : Concrete μ) : Prop :=
  Inert c ∨ FollowsGrammar c ∧ (c.kind = "catch_clause" ∨
    c.kind = "finally_clause" ∧ ∃ body, c.children = [body] ∧ body.field = some "body")

theorem IsClause.follows {c : Concrete μ} (h : IsClause c) : FollowsGrammar c :=
  h.elim (·.1) (·.1)

theorem follows_tryCatch {body : Concrete μ} {clauses : List (Concrete μ)}
    (hshape : Shape.ofKind? n.kind = some .tryCatch) (hnamed : n.named = true)
    (hchildren : n.children = body :: clauses) (hbody : FollowsGrammar body)
    (hfield : body.field = some "body") (hclauses : ∀ c ∈ clauses, IsClause c) :
    FollowsGrammar n := by
  refine follows_of_shape hshape (by decide) hnamed ?_ fun c hc => ?_
  · intro c hc
    rw [hchildren, List.mem_cons] at hc
    rcases hc with rfl | hc
    · exact hbody
    · exact (hclauses c hc).follows
  · have hmem := mem_children_of_mem_visible hc
    rw [hchildren, List.mem_cons] at hmem
    rcases hmem with rfl | hmem
    · exact Or.inr (Or.inl (by simp [childAt?, hchildren, hfield]))
    · rcases hclauses c hmem with hinert | ⟨_, hcatch | ⟨hfinally, inner, hinner, hinnerAt⟩⟩
      · exact Or.inl hinert.2
      · exact Or.inr (Or.inr (Or.inl hcatch))
      · refine Or.inr (Or.inr (Or.inr ⟨hfinally, fun d hd => Or.inr ?_⟩))
        have hd := mem_children_of_mem_visible hd
        rw [hinner, List.mem_singleton] at hd
        simp [childAt?, hinner, hinnerAt, hd]

end Namespacer.Concrete
