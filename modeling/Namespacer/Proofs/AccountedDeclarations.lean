import Namespacer.Proofs.AccountedExpressions

/-!
# Declarations account for what they pass

The name of a class, an interface, a trait or an enum is the free word behind a head: here the
declaration itself explains the pair. The name of a constant stands behind a head if the type of
the constant ends in one. Everything that stands in the list of the traits that a class uses is
passed over.
-/

namespace Namespacer.Grammar

open Reader
open Concrete
open Account Gap

variable {g : Nesting} {kind : String} {start : Nat} {pre post : Gap → Prop}

/-! ## Ends of statements -/

theorem endOfStatement_accounts : endOfStatement.Accounts nothing (nothing ()) pre Quiet := by
  refine .ifAccept accounts_return (.peek fun next => ?_)
  split
  · exact accounts_return.before fun _ h => quiet_of_next h.2 rfl
  · exact accounts_return.before fun _ h => quiet_of_none h.2
  · exact accounts_failure

theorem skipStatement_accounts (rounds : Nat) :
    (skipStatement rounds).Accounts everything (nothing ()) pre Quiet := by
  induction rounds generalizing pre with
  | zero => exact accounts_failure
  | succ rounds ih =>
    refine .peek fun next => ?_
    split
    · exact ((accounts_discard accounts_take_symbol).before fun _ h => h.2).ofNothing
    · exact (accounts_pure (covers_nothing _)).before fun _ h => quiet_of_next h.2 rfl
    · exact (accounts_pure (covers_nothing _)).before fun _ h => quiet_of_none h.2
    · have hdiscard : discard take = take >>= fun _ => pure () := rfl
      rw [hdiscard, bind_assoc]
      exact .passOver fun _ => ih

theorem skipBraces_accounts (rounds depth : Nat) :
    (skipBraces rounds depth).Accounts everything (nothing ()) pre Quiet := by
  induction rounds generalizing depth pre with
  | zero => exact accounts_failure
  | succ rounds ih =>
    refine .passOver fun token => ?_
    split
    · exact ih _
    · rename_i hlexeme
      refine .ite (fun _ => ?_) fun _ => ih _
      refine (accounts_pure (covers_nothing _)).before fun gap hgap => ?_
      obtain ⟨_, tokens⟩ := gap
      cases hgap
      exact quiet_of_not_isHead (by rw [hlexeme]; rfl) tokens
    · exact ih _

/-! ## Functions, constants and properties -/

/-- What the name of a constant tells, if the constant has a type. -/
def ofConstant (n : Node) : Account :=
  fun head word => ofNode n head word ∨ ∃ name, n.children.head? = some name ∧ Spans name word

/-- A name tells that it is the word behind a head. -/
def ofName (name : Node) : Account := fun _ word => Spans name word

theorem accounts_declaredName : name.Accounts ofName (nothing ()) Anywhere Anywhere := by
  refine .look (still_isWord 0) fun _ => .ite (fun _ => ?_) fun _ => accounts_failure
  have htake : take.Accounts (fun token _ word => word = token) (nothing ()) Anywhere Anywhere :=
    accounts_take (fun _ _ _ _ _ _ _ _ => rfl) fun _ _ _ _ => trivial
  refine htake.bindThrough fun token => accounts_pure fun _ word h => ?_
  subst h
  exact ⟨rfl, rfl⟩

section Members

variable (hg : g.Accounts)
include hg

theorem functionDefinition_accounts :
    (functionDefinition g).Accounts ofNode (nothing ()) Quiet Quiet := by
  refine .look still_position fun start => accounts_attributes.bind fun attributes => ?_
  refine (accounts_keyword rfl).andThen fun _ => referenceMark_accounts.andThen fun mark => ?_
  refine accounts_name.andThen fun name => (parameters_accounts hg).bind fun parameters => ?_
  refine accounts_returnType.andThen fun type => (body_accounts hg).bind fun body => ?_
  refine accounts_node (by decide) fun _ _ h => ?_
  simp at h ⊢
  tauto

theorem constElement_accounts :
    (constElement g).Accounts ofNode (nothing ()) Quiet Anywhere := by
  refine .look still_position fun start => accounts_name.andThen fun name => ?_
  refine accounts_symbol.andThen fun _ => (hg.expression _).bind fun value => ?_
  refine accounts_node (by decide) fun _ _ h => ?_
  simp at h ⊢
  tauto

theorem typedConstElement_accounts :
    (constElement g).Accounts ofConstant (nothing ()) Anywhere Anywhere := by
  refine .look still_position fun start => accounts_declaredName.bind fun name => ?_
  refine accounts_symbol.andThen fun _ => (hg.expression _).bind fun value => ?_
  refine accounts_node_of fun stop head word h => ?_
  rcases h with (h | h) | h
  · exact h.elim
  · exact .inr ⟨name, rfl, h⟩
  · exact .inl (.child (by simp) (by simp) h)

theorem constDeclaration_accounts (before : List Node) :
    (constDeclaration g start before).Accounts ofNode (ofNodes before) Quiet Quiet := by
  refine (accounts_keyword rfl).andThen fun _ => .look (still_isWord _) fun _ => ?_
  refine .look (still_isSymbol _ _) fun _ => .ite (fun _ => ?_) fun _ => ?_
  · rw [pure_bind]
    refine (accounts_commaSeparated (constElement_accounts hg) fun _ h => h).bind fun elements => ?_
    refine endOfStatement_accounts.andThen fun _ => accounts_node (by decide) fun _ _ h => ?_
    simpa using h
  · refine (accounts_typeExpression _).andThen fun type => ?_
    rw [pure_bind]
    refine (accounts_commaSeparated (typedConstElement_accounts hg) fun _ _ => trivial).bind
      fun elements => endOfStatement_accounts.andThen fun _ => ?_
    refine accounts_node_of fun stop head word h => ?_
    rcases h with h | ⟨element, helement, h | ⟨name, hname, hspans⟩⟩
    · refine ofNode_of_children (by simp) ?_
      simpa using Or.inl h
    · refine ofNode_of_children (by simp) ?_
      simpa using Or.inr (Or.inr ⟨element, helement, h⟩)
    · refine .here (.typedConstant rfl ?_ ?_ hname hspans)
      · simp [childAt?]
      · simp [helement]

theorem methodDeclaration_accounts (before : List Node) :
    (methodDeclaration g start before).Accounts ofNode (ofNodes before) Quiet Quiet := by
  refine (accounts_keyword rfl).andThen fun _ => referenceMark_accounts.andThen fun mark => ?_
  refine accounts_name.andThen fun name => (parameters_accounts hg).bind fun parameters => ?_
  refine accounts_returnType.andThen fun type => .ifSymbol ?_ ?_
  · refine (body_accounts hg).bind fun body => accounts_node (by decide) fun _ _ h => ?_
    simp at h ⊢
    tauto
  · refine endOfStatement_accounts.andThen fun _ => accounts_node (by decide) fun _ _ h => ?_
    simp at h ⊢
    tauto

theorem propertyElement_accounts :
    (propertyElement g).Accounts ofNode (nothing ()) pre Anywhere := by
  refine .look still_position fun start => accounts_plainVariable.andThen fun name => ?_
  refine .ifAcceptOptional _ (hg.expression _) (fun n => covers_withField n _) (fun _ _ => trivial)
    fun default => ?_
  refine accounts_node (by decide) fun _ _ h => ?_
  simp at h ⊢
  tauto

theorem propertyDeclaration_accounts (before : List Node) :
    (propertyDeclaration g start before).Accounts ofNode (ofNodes before) Quiet Quiet := by
  refine .peek fun next => ?_
  extract_lets afterType
  have hafter : ∀ type : List Node, (afterType type).Accounts ofNode (ofNodes before) Anywhere
      Quiet := by
    intro type
    refine (accounts_commaSeparated (propertyElement_accounts hg) fun _ _ => trivial).bind
      fun elements => .ifSymbol ?_ ?_
    · refine (hg.members.before fun _ _ => trivial).bind fun hooks => ?_
      refine accounts_node (by decide) fun _ _ h => ?_
      simp at h ⊢
      tauto
    · refine endOfStatement_accounts.andThen fun _ => accounts_node (by decide) fun _ _ h => ?_
      simp at h ⊢
      tauto
  clear_value afterType
  split
  · exact (hafter _).before fun _ _ => trivial
  · exact ((accounts_typeExpression _).before fun _ h => h.1).andThen fun n => hafter _

omit hg in
/-- The list of traits as one reader between the beginning of a node and its end. -/
theorem useDeclaration_eq : useDeclaration = (do
    let start ← position
    (do
      keyword .use_
      discard (commaSeparated qualifiedName)
      if ← accept .openBrace then skipBraces ((← get).tokens.length + 1) 1 else endOfStatement)
    node "use_declaration" start []) := by
  rw [useDeclaration]
  simp only [bind_assoc]
  refine congrArg _ (funext fun start => congrArg _ (funext fun _ => congrArg _ (funext fun _ => ?_)))
  refine congrArg _ (funext fun opens => ?_)
  split
  · rw [bind_assoc]
  · rfl

omit hg in
theorem useDeclaration_accounts : useDeclaration.Accounts ofNode (nothing ()) Quiet Quiet := by
  rw [useDeclaration_eq]
  refine accounts_covering everything ?_ (fun _ h => h) fun start _ input result rest hrun => ?_
  · refine (accounts_keyword rfl).andThen fun _ => ?_
    have hnames := accounts_commaSeparated accounts_qualifiedName fun _ h => h
    have hskipped := accounts_discard (hnames.mono (fun _ _ _ h => by simp at h) (covers_refl _))
    refine hskipped.andThen fun _ => ?_
    refine .ifAccept (.look still_get fun _ => skipBraces_accounts _ _) ?_
    exact endOfStatement_accounts.ofNothing
  · cases hrun
    exact ⟨rfl, fun head word _ hstart hstop => ofNode_of_isPassedOver rfl hstart hstop⟩

theorem enumCase_accounts (before : List Node) :
    (enumCase g start before).Accounts ofNode (ofNodes before) Quiet Quiet := by
  refine (accounts_keyword rfl).andThen fun _ => accounts_name.andThen fun name => ?_
  refine .ifAcceptOptional _ (hg.expression _) (fun n => covers_withField n _) (fun _ h => h)
    fun value => ?_
  refine endOfStatement_accounts.andThen fun _ => accounts_node (by decide) fun _ _ h => ?_
  simp at h ⊢
  tauto

theorem propertyHook_accounts (before : List Node) :
    (propertyHook g start before).Accounts ofNode (ofNodes before) Quiet Quiet := by
  refine referenceMark_accounts.andThen fun mark => accounts_name.andThen fun name => ?_
  refine .ifSymbolOptional id (parameters_accounts hg).anywhere (fun _ => covers_refl _) (fun _ h => h)
    fun parameters => ?_
  have hnode (bodies : List Node) : (node "property_hook" start
      (before ++ mark ++ [name] ++ parameters ++ bodies)).Accounts ofNode
        (((ofNodes before).or (ofNodes parameters)).or (ofNodes bodies)) Quiet Quiet := by
    refine accounts_node (by decide) fun _ _ h => ?_
    simp at h ⊢
    tauto
  refine .ifAccept (.look (still_isSymbol _ _) fun _ => ?_) (.look (still_isSymbol _ _) fun _ => ?_)
  · refine (hg.expression _).bind fun value => endOfStatement_accounts.andThen fun _ => ?_
    exact (hnode _).knowing fun _ _ h => by simpa using h
  · refine .ite (fun h => nomatch h) fun _ => .ite (fun _ => ?_) fun _ => ?_
    · exact (body_accounts hg).bind fun body => (hnode _).knowing fun _ _ h => by simpa using h
    · exact endOfStatement_accounts.andThen fun _ => (hnode _).knowing fun _ _ h => .inl h

/-! ## Classes -/

omit hg in
theorem still_isHook : isHook.Still := by
  refine still_bind (still_isSymbol _ _) fun _ => still_bind (still_spelling _) fun _ => ?_
  refine still_ite (still_bind (still_peek _) fun next => ?_) (still_pure _)
  split <;> exact still_pure _

theorem memberDeclaration_accounts :
    (memberDeclaration g).Accounts ofNode (nothing ()) Quiet Quiet := by
  refine .look (still_isKeyword _ _) fun _ => .ite (fun _ => useDeclaration_accounts) fun _ => ?_
  refine .look still_position fun start => accounts_attributes.bind fun attributes => ?_
  refine accounts_modifiers.andThen fun modifiers => .look still_isHook fun _ => ?_
  have hknown : Covers (ofNodes (attributes ++ modifiers)) ((nothing ()).or (ofNodes attributes)) :=
    fun _ _ h => by
      simp at h ⊢
      exact .inl h
  refine .ite (fun _ => (propertyHook_accounts hg _).knowing hknown) fun _ => ?_
  refine .look (still_keyword? _) fun word => ?_
  split
  · exact (constDeclaration_accounts hg _).knowing hknown
  · exact (methodDeclaration_accounts hg _).knowing hknown
  · exact (enumCase_accounts hg _).knowing hknown
  · exact (propertyDeclaration_accounts hg _).knowing hknown

omit hg in
theorem isMemberListKind_memberListKind (members : List Node) :
    isMemberListKind (memberListKind members) = true := by
  unfold memberListKind
  split
  · rfl
  · split <;> rfl

omit hg in
theorem ne_array_of_isMemberListKind (h : isMemberListKind kind = true) :
    kind ≠ "array_creation_expression" := by
  rintro rfl
  cases h

theorem memberList_accounts : (memberList g).Accounts ofNode (nothing ()) pre Quiet := by
  refine .look still_position fun start => accounts_symbol.andThen fun _ => ?_
  refine (accounts_collect ofNode (.ifSymbol ?_ (memberDeclaration_accounts hg).found)).bind
    fun members => accounts_symbol.andThen fun _ => ?_
  · exact (accounts_pure (covers_nothing _)).before fun _ h => quiet_of_symbol h
  · refine accounts_node ?_ fun _ _ h => by simpa using h
    exact ne_array_of_isMemberListKind (isMemberListKind_memberListKind members)

omit hg in
theorem memberList_isMemberListKind :
    (memberList g).Ensures fun n => isMemberListKind n.kind = true :=
  ensures_skip fun _ => ensures_skip fun _ => ensures_skip fun members => ensures_skip fun _ =>
    ensures_node fun _ => isMemberListKind_memberListKind members

omit hg in
/-- Members tell nothing but what one of them tells. -/
theorem ofNodes_of_isMemberListKind {n : Node} (hn : isMemberListKind n.kind = true)
    {head word : Token} (h : ofNode n head word) : ofNodes n.children head word := by
  cases h with
  | child _ hc h => exact ⟨_, hc, h⟩
  | element hkind => exact absurd hkind (ne_array_of_isMemberListKind hn)
  | here h =>
    unfold isMemberListKind at hn
    cases h with
    | declared hkind =>
      split at hn <;> rename_i heq <;> first | (rw [heq] at hkind; cases hkind) | cases hn
    | passedOver hkind =>
      split at hn <;> rename_i heq <;> first | (rw [heq] at hkind; cases hkind) | cases hn
    | typedConstant hkind =>
      split at hn <;> rename_i heq <;> first | (rw [heq] at hkind; simp at hkind) | cases hn

omit hg in
/-- No part is the name of what it belongs to. -/
def Unnamed (parts : List Node) : Prop := ∀ c ∈ parts, c.field ≠ some "name"

omit hg in
theorem unnamed_attributes : attributes.Ensures Unnamed := by
  refine ensures_skip fun start => ensures_skip fun groups => ?_
  refine ensures_ite (fun _ => ensures_pure (by simp [Unnamed])) fun _ => ensures_skip fun n => ?_
  exact ensures_pure (by simp [Unnamed])

omit hg in
theorem unnamed_modifiers : modifiers.Ensures Unnamed := by
  apply ensures_collect
  refine ensures_skip fun next => ?_
  split
  · exact ensures_pure (by simp)
  · rename_i kind _
    have hmodifier (start : Nat) : (node kind start [] >>= fun n => pure (some n)).Ensures
        fun found => ∀ c ∈ found, c.field ≠ some "name" := by
      refine ensures_bind (P := fun n => n.field ≠ some "name") (ensures_node fun _ => by simp) ?_
      exact fun n hn => ensures_pure (by simpa using hn)
    refine ensures_skip fun start => ensures_skip fun _ => ?_
    refine ensures_skip fun _ => ensures_skip fun _ => ensures_skip fun _ => ?_
    refine ensures_ite (fun _ => ?_) fun _ => hmodifier start
    exact ensures_skip fun _ => ensures_skip fun _ => ensures_skip fun _ => hmodifier start

omit hg in
/-- A declaration tells which word is its name. -/
theorem ofNode_of_declared {n name : Node} {before : List Node}
    (hkind : Shape.ofKind? n.kind = some .declaration) (hbefore : Unnamed before)
    (hchildren : before ++ [name.withField "name"] <+: n.children) {head word : Token}
    (h : ofName name head word) : ofNode n head word := by
  obtain ⟨after, hafter⟩ := hchildren
  refine .here (@Explains.declared _ _ _ hkind (name.withField "name") ?_ ?_)
  · have hnone : before.find? (·.field == some "name") = none := by
      simpa [Unnamed] using hbefore
    rw [childAt?, ← hafter, List.append_assoc, List.find?_append, hnone, Option.none_or]
    simp
  · exact ⟨by simpa using h.1, by simpa using h.2⟩

theorem classDeclaration_accounts (hkind : Shape.ofKind? kind = some .declaration)
    {before : List Node} (hbefore : Unnamed before) :
    (classDeclaration g kind start before).Accounts ofNode (ofNodes before) Quiet Quiet := by
  refine (accounts_discard accounts_take_quiet).andThen fun _ => accounts_declaredName.bind fun name => ?_
  refine (typeClause_accounts rfl rfl).andThen fun base => ?_
  refine (typeClause_accounts rfl rfl).andThen fun interfaces => (classBody_accounts hg).bind fun body => ?_
  have harray : kind ≠ "array_creation_expression" := by
    rintro rfl
    cases hkind
  refine accounts_node_of fun stop head word h => ?_
  rcases h with (h | h) | h
  · refine ofNode_of_children harray ?_
    simp
    exact .inl h
  · refine ofNode_of_declared ?_ hbefore ?_ h
    · exact hkind
    · simp
  · refine ofNode_of_children harray ?_
    simp
    tauto

theorem enumDeclaration_accounts {before : List Node} (hbefore : Unnamed before) :
    (enumDeclaration g start before).Accounts ofNode (ofNodes before) Quiet Quiet := by
  refine accounts_keyword_head.andThen fun _ => accounts_declaredName.bind fun name => ?_
  refine .ifAcceptOptional id (accounts_typeExpression _).ofNothing (fun _ => covers_refl _)
    (fun _ h => h) fun backing => ?_
  refine (typeClause_accounts rfl rfl).andThen fun interfaces => ?_
  refine hg.members.bindWith hg.isMemberListKind fun list hlist => ?_
  obtain ⟨mark, kind, named, field, bodyStart, bodyStop, members⟩ := list
  refine accounts_node_of fun stop head word h => ?_
  rcases h with ((h | h) | h) | h
  · refine ofNode_of_children (by simp) ?_
    simp
    exact .inl h
  · refine ofNode_of_declared rfl hbefore ?_ h
    simp
  · refine ofNode_of_children (by simp) ?_
    simp
    tauto
  · have hbody : ofNode (.node mark "enum_declaration_list" named (some "body") bodyStart bodyStop
        members) head word :=
      ofNode_of_children (by simp) (ofNodes_of_isMemberListKind hlist h)
    refine ofNode_of_children (by simp) ?_
    simp
    tauto

omit hg in
theorem still_isClassHead : isClassHead.Still := by
  refine still_bind (still_keyword? _) fun word => ?_
  split
  · exact still_isWord _
  · exact still_isWord _
  · exact still_isWord _
  · refine still_bind (still_isWord _) fun _ => still_bind (still_isKeyword _ _) fun _ => ?_
    exact still_bind (still_isKeyword _ _) fun _ => still_pure _
  · refine still_bind (still_keyword? _) fun next => ?_
    split <;> exact still_pure _
  · refine still_bind (still_keyword? _) fun next => ?_
    split <;> exact still_pure _
  · refine still_bind (still_keyword? _) fun next => ?_
    split <;> exact still_pure _
  · exact still_pure _

theorem typeDeclaration_accounts {attributes : List Node} (hattributes : Unnamed attributes) :
    (typeDeclaration g start attributes).Accounts ofNode (ofNodes attributes) Quiet Quiet := by
  have hmodifiers : modifiers.Accounts ofNodes (nothing ()) Quiet Quiet := accounts_modifiers.ofNothing
  refine hmodifiers.bindWith unnamed_modifiers fun modifiers hmodifiers => ?_
  have hbefore : Unnamed (attributes ++ modifiers) :=
    List.forall_mem_append.mpr ⟨hattributes, hmodifiers⟩
  have hknown : Covers (ofNodes (attributes ++ modifiers))
      ((ofNodes attributes).or (ofNodes modifiers)) := fun _ _ h => ofAny_append.mpr h
  refine .look (still_keyword? _) fun word => ?_
  split
  · exact (classDeclaration_accounts hg rfl hbefore).knowing hknown
  · exact (classDeclaration_accounts hg rfl hbefore).knowing hknown
  · exact (classDeclaration_accounts hg rfl hbefore).knowing hknown
  · exact (enumDeclaration_accounts hg hbefore).knowing hknown
  · exact accounts_failure

end Members

end Namespacer.Grammar
