import Namespacer.Proofs.AccountedTypes

/-!
# Expressions account for what they pass

An expression begins where no suspect pair stands and may end in a head: a name is an expression,
and so is the constant of a class. Nothing that may follow an expression is a free word, so that no
suspect pair arises there.
-/

namespace Namespacer.Grammar

open Reader
open Account Gap

/-- The nested readers account for what they pass. -/
structure Nesting.Accounts (g : Nesting) : Prop where
  expression (level : Nat) : (g.expression level).Accounts ofNode (nothing ()) Quiet Anywhere
  statement (clauses : Clauses) : (g.statement clauses).Accounts ofNode (nothing ()) Quiet Quiet
  members : g.members.Accounts ofNode (nothing ()) Anywhere Quiet
  isMemberListKind : g.members.Ensures fun n => isMemberListKind n.kind = true

variable {g : Nesting} {kind : String} {start : Nat} {pre post : Gap → Prop}

theorem byReference_accounts {inner : Reader Node}
    (hinner : inner.Accounts ofNode (nothing ()) Quiet post) :
    (byReference inner).Accounts ofNode (nothing ()) pre post :=
  .look still_position fun _ => accounts_symbol.andThen fun _ => accounts_around (by decide) hinner

section Arguments

variable (hg : g.Accounts)
include hg

theorem parenthesized_accounts : (parenthesized g).Accounts ofNode (nothing ()) pre Quiet := by
  refine .look still_position fun start => accounts_symbol.andThen fun _ => ?_
  refine (hg.expression _).bind fun inner => accounts_symbol.andThen fun _ => ?_
  exact accounts_node (by decide) fun _ _ h => by simpa using h

theorem computedVariable_accounts (rounds : Nat) :
    (computedVariable g rounds).Accounts ofNode (nothing ()) pre Quiet := by
  induction rounds generalizing pre with
  | zero => exact accounts_failure
  | succ rounds ih =>
    refine .look still_position fun start => .peek fun next => ?_
    split
    · exact (accounts_leaf (accounts_take_next rfl rfl)).ofNothing
    · refine accounts_symbol.andThen fun _ => .ifAccept ?_ ?_
      · refine (hg.expression _).bind fun inner => accounts_symbol.andThen fun _ => ?_
        exact accounts_node (by decide) fun _ _ h => by simpa using h
      · exact accounts_around (by decide) ih

theorem anyVariable_accounts : (anyVariable g).Accounts ofNode (nothing ()) pre Quiet :=
  .look still_get fun _ => computedVariable_accounts hg _

/-! ## Arguments and elements -/

theorem unpacking_accounts : (unpacking g).Accounts ofNode (nothing ()) pre Anywhere :=
  .look still_position fun _ => accounts_symbol.andThen fun _ =>
    accounts_around (by decide) (hg.expression _)

theorem argument_accounts : (argument g).Accounts ofNode (nothing ()) Quiet Anywhere := by
  refine .look still_position fun start => .look (still_isWord _) fun _ => ?_
  refine .look (still_isSymbol _ _) fun _ => ?_
  extract_lets afterLabel
  have hafter : ∀ label : List Node, (afterLabel label).Accounts ofNode (nothing ()) Quiet Anywhere := by
    intro label
    have hvalue (mark : List Node) : (do
        let value ← if ← isSymbol .ellipsis then unpacking g else g.expression Level.lowest
        node "argument" start (label ++ mark ++ [value])).Accounts ofNode (nothing ()) Quiet
          Anywhere := by
      refine .ifSymbol ?_ ?_
      · refine (unpacking_accounts hg).bind fun value => ?_
        exact accounts_node (by decide) fun _ _ h => by simp at h ⊢; tauto
      · refine (hg.expression _).bind fun value => ?_
        exact accounts_node (by decide) fun _ _ h => by simp at h ⊢; tauto
    refine .ifSymbol ?_ ?_
    · exact (accounts_leaf accounts_take_symbol).andThen fun mark => hvalue [mark]
    · exact hvalue []
  clear_value afterLabel
  refine .ite (fun _ => ?_) fun _ => hafter []
  exact accounts_name.andThen fun label => accounts_symbol.andThen fun _ => hafter _

theorem arguments_accounts : (arguments g).Accounts ofNode (nothing ()) pre Quiet := by
  refine .look still_position fun start => accounts_symbol.andThen fun _ => ?_
  refine .look (still_isSymbol _ _) fun _ => .look (still_isSymbol _ _) fun _ => ?_
  refine .ite (fun _ => ?_) fun _ => ?_
  · refine (accounts_leaf accounts_take_quiet).andThen fun placeholder => ?_
    exact accounts_symbol.andThen fun _ => accounts_node (by decide) (covers_nothing _)
  · refine (accounts_listOf (argument_accounts hg)).bind fun items => ?_
    exact accounts_node (by decide) fun _ _ h => by simpa using h

theorem elementValue_accounts : (elementValue g).Accounts ofNode (nothing ()) Quiet Anywhere :=
  .ifSymbol (byReference_accounts (hg.expression _)) (hg.expression _)

theorem keyedValue_accounts : (keyedValue g).Accounts ofNodes (nothing ()) Quiet Anywhere := by
  refine (elementValue_accounts hg).bind fun first => .ifAccept ?_ ?_
  · refine (elementValue_accounts hg).bind fun value => ?_
    exact accounts_pure fun _ _ h => by simpa using h
  · exact accounts_pure fun _ _ h => by simpa using h

/-- What the parts of an element tell. -/
def ofElement (n : Node) : Account := ofNodes n.children

theorem element_accounts : (element g).Accounts ofElement (nothing ()) Quiet Anywhere := by
  have hnode {start : Nat} {parts : List Node} {known : Account}
      (hknown : Covers (ofNodes parts) known) :
      (node "array_element_initializer" start parts).Accounts ofElement known Anywhere Anywhere :=
    accounts_node_of fun _ => hknown
  refine .look still_position fun start => .ifSymbol ?_ ?_
  · exact (unpacking_accounts hg).bind fun part => hnode fun _ _ h => by simpa using h
  · exact (keyedValue_accounts hg).bind fun parts => hnode fun _ _ h => by simpa using h

theorem elements_accounts (close : Symbol) :
    (elements g close).Accounts (ofAny ofElement) (nothing ()) Quiet Quiet := by
  refine accounts_listUntil _ (.ifSymbol ?_ (element_accounts hg).single)
  exact (accounts_pure (covers_nothing _)).anywhere

end Arguments

section Targets

variable {head word : Token}

theorem not_explains_array {n : Node} (hn : n.kind = "array_creation_expression") :
    ¬ Explains head word n := by
  intro h
  cases h with
  | declared hkind =>
    rw [hn] at hkind
    cases hkind
  | passedOver hkind =>
    rw [hn] at hkind
    cases hkind
  | typedConstant hkind =>
    rw [hn] at hkind
    simp at hkind

mutual

/-- An array tells the same as the list of its targets. -/
theorem ofNode_asTarget : ∀ {n : Node}, ofNode n head word → ofNode (asTarget n) head word
  | .node mark kind named field start stop children, h => by
    rw [asTarget]
    split
    · rename_i hkind
      refine ofNode_of_children (by simp) (ofNodes_asTargets ?_)
      cases h with
      | here h => exact absurd h (not_explains_array hkind)
      | child hn => exact absurd hkind hn
      | element _ hc hd h => exact ⟨_, hc, _, hd, h⟩
    · exact h

theorem ofNodes_asTargets : ∀ {items : List Node}, ofAny ofElement items head word →
    ofNodes (asTargets items) head word
  | [], h => by simp at h
  | .node _ _ _ _ _ _ parts :: rest, h => by
    rw [asTargets]
    refine ofAny_append.mpr ?_
    rcases ofAny_cons.mp h with h | h
    · exact .inl (ofNodes_asTargetParts h)
    · exact .inr (ofNodes_asTargets h)

theorem ofNodes_asTargetParts : ∀ {parts : List Node}, ofNodes parts head word →
    ofNodes (asTargetParts parts) head word
  | [], h => h
  | [value], h => by
    rw [asTargetParts]
    have hvalue : ofNode value head word := by simpa using h
    exact ofAny_cons.mpr (.inl (ofNode_asTarget hvalue))
  | key :: next :: rest, h => by
    rw [asTargetParts]
    rcases ofAny_cons.mp h with h | h
    · exact ofAny_cons.mpr (.inl h)
    · exact ofAny_cons.mpr (.inr (ofNodes_asTargetParts h))

end

end Targets

section Operands

variable (hg : g.Accounts)
include hg

omit hg in
theorem accounts_arrayNode {items : List Node} :
    (node "array_creation_expression" start items).Accounts ofNode
      ((nothing ()).or (ofAny ofElement items)) pre pre := by
  refine accounts_node_of fun stop head word h => ?_
  rcases h with h | ⟨c, hc, d, hd, h⟩
  · exact h.elim
  · exact .element rfl hc hd h

theorem bracketArray_accounts : (bracketArray g).Accounts ofNode (nothing ()) pre Quiet :=
  .look still_position fun _ => accounts_symbol.andThen fun _ =>
    (elements_accounts hg _).bind fun _ => accounts_arrayNode

theorem keywordArray_accounts : (keywordArray g).Accounts ofNode (nothing ()) Quiet Quiet :=
  .look still_position fun _ => (accounts_keyword rfl).andThen fun _ => accounts_symbol.andThen fun _ =>
    (elements_accounts hg _).bind fun _ => accounts_arrayNode

theorem keywordList_accounts : (keywordList g).Accounts ofNode (nothing ()) Quiet Quiet := by
  refine .look still_position fun _ => (accounts_keyword rfl).andThen fun _ => ?_
  refine accounts_symbol.andThen fun _ => (elements_accounts hg _).bind fun items => ?_
  exact accounts_node (by decide) fun _ _ h => ofNodes_asTargets (by simpa using h)

/-! ## Functions -/

theorem parameter_accounts : (parameter g).Accounts ofNode (nothing ()) Quiet Anywhere := by
  refine .look still_position fun start => accounts_attributes.bind fun attributes => ?_
  refine accounts_modifiers.andThen fun modifiers => ?_
  refine .look (still_peek _) fun next => ?_
  extract_lets afterType
  have hafter : ∀ type : List Node, (afterType type).Accounts ofNode
      ((nothing ()).or (ofNodes attributes)) Anywhere Anywhere := by
    intro type
    refine .ifSymbolOptional _ (accounts_leaf accounts_take_symbol).anywhere.ofNothing
      (fun n => covers_withField n _) (fun _ h => h) fun mark => ?_
    refine (accounts_accept (fun _ h => h) fun _ _ => trivial).andThen fun isVariadic => ?_
    refine accounts_plainVariable.andThen fun name => ?_
    refine .ifAcceptOptional _ (hg.expression _) (fun n => covers_withField n _) (fun _ _ => trivial)
      fun default => ?_
    refine .ifSymbolOptional id (hg.members.before fun _ _ => trivial).anywhere
      (fun n _ _ h => h) (fun _ h => h) fun hooks => ?_
    refine accounts_node ?_ fun _ _ h => by simp at h ⊢; tauto
    split
    · decide
    · split <;> decide
  clear_value afterType
  have htyped : (typeExpression >>= fun n => pure [n.withField "type"] >>= afterType).Accounts ofNode
      ((nothing ()).or (ofNodes attributes)) Quiet Anywhere :=
    (accounts_typeExpression _).andThen fun n => hafter _
  split
  · exact htyped
  · exact htyped
  · exact htyped
  · exact htyped
  · exact (hafter _).before fun _ _ => trivial

theorem parameters_accounts : (parameters g).Accounts ofNode (nothing ()) pre Quiet := by
  refine .look still_position fun start => accounts_symbol.andThen fun _ => ?_
  refine (accounts_listOf (parameter_accounts hg)).bind fun items => ?_
  exact (accounts_node (by decide) fun _ _ h => by simpa using h).asChild _

omit hg in
theorem referenceMark_accounts : referenceMark.Accounts nothing (nothing ()) Quiet Quiet :=
  .ifSymbol ((accounts_leaf accounts_take_symbol).andThen fun _ => accounts_return) accounts_return

theorem body_accounts : (body g).Accounts ofNode (nothing ()) pre Quiet := by
  refine .ifSymbol ?_ accounts_failure
  exact ((hg.statement _).before fun _ h => quiet_of_symbol h).asChild _

theorem closureVariables_accounts :
    (closureVariables g).Accounts ofNodes (nothing ()) Quiet Quiet := by
  refine .look still_position fun start => .ifAcceptKeyword rfl (fun _ h _ => h) ?_ ?_
  · refine accounts_symbol.andThen fun _ => ?_
    refine (accounts_listUntil ofNode (.ifSymbol ?_ ?_)).bind fun items => ?_
    · exact (byReference_accounts (anyVariable_accounts hg).anywhere).single
    · exact (anyVariable_accounts hg).anywhere.single
    · exact (accounts_node (by decide) fun _ _ h => by simpa using h).single
  · exact accounts_pure (covers_nothing _)

theorem closure_accounts (attributes : List Node) :
    (closure g start attributes).Accounts ofNode (ofNodes attributes) Quiet Anywhere := by
  have hafter (modifier : List Node) : (do
      if ← acceptKeyword .fn_ then
        let mark ← referenceMark
        let parameters ← parameters g
        let type ← returnType
        symbol .doubleArrow
        let body ← g.expression Level.lowest
        node "arrow_function" start
          (attributes ++ modifier ++ mark ++ [parameters] ++ type ++ [body.withField "body"])
      else
        keyword .function_
        let mark ← referenceMark
        let parameters ← parameters g
        let captured ← closureVariables g
        let type ← returnType
        let body ← body g
        node "anonymous_function" start
          (attributes ++ modifier ++ mark ++ [parameters] ++ captured ++ type ++ [body])).Accounts
      ofNode (ofNodes attributes) Quiet Anywhere := by
    refine .ifAcceptKeyword rfl (fun _ h _ => h) ?_ ?_
    · refine referenceMark_accounts.andThen fun mark => (parameters_accounts hg).bind fun parameters => ?_
      refine accounts_returnType.andThen fun type => accounts_symbol.andThen fun _ => ?_
      refine (hg.expression _).bind fun body => accounts_node (by decide) fun _ _ h => ?_
      simp at h ⊢
      tauto
    · refine (accounts_keyword rfl).andThen fun _ => referenceMark_accounts.andThen fun mark => ?_
      refine (parameters_accounts hg).bind fun parameters => ?_
      refine (closureVariables_accounts hg).bind fun captured => ?_
      refine accounts_returnType.andThen fun type => (body_accounts hg).anywhere.bind fun body => ?_
      refine accounts_node (by decide) fun _ _ h => ?_
      simp at h ⊢
      tauto
  refine .ifKeyword ?_ (hafter [])
  exact (accounts_leaf (accounts_take_keyword rfl)).andThen fun modifier => hafter _

/-! ## Members and calls -/

theorem memberName_accounts : (memberName g).Accounts ofNode (nothing ()) Quiet Anywhere := by
  refine .ifAccept ?_ (.look (still_isWord _) fun _ => .ite (fun _ => ?_) fun _ => ?_)
  · refine (hg.expression _).bind fun inner => accounts_symbol.andThen fun _ => ?_
    exact (accounts_pure fun _ _ h => by simpa using h).anywhere
  · exact accounts_name.ofNothing.asChild _
  · exact (anyVariable_accounts hg).anywhere.asChild _

/-- The arguments of a call, if there are any, and what is made of them. -/
theorem ifCalled_accounts {calls : Bool} {known : Account} {f : Node → Reader Node}
    {other : Reader Node} (hf : ∀ arguments, (f arguments).Accounts ofNode
      (known.or (ofNode arguments)) Anywhere Anywhere)
    (hother : other.Accounts ofNode known Anywhere Anywhere) :
    (isSymbol .openParen >>= fun opens =>
      if (calls && opens) = true then arguments g >>= f else other).Accounts ofNode known Anywhere
        Anywhere :=
  .look (still_isSymbol _ _) fun _ => .ite (fun _ => (arguments_accounts hg).anywhere.bind hf)
    fun _ => hother

theorem member_accounts (calls : Bool) (hkind : kind = "" ∨ kind = "nullsafe_") {object : Node}
    {mark : Symbol} : (member g calls kind object).Accounts ofNode (ofNode object)
      (fun gap => gap.next? = some (.symbol mark)) Anywhere := by
  refine (accounts_discard accounts_take_symbol).andThen fun _ => ?_
  refine (memberName_accounts hg).bind fun name => ?_
  refine ifCalled_accounts hg (fun arguments => accounts_node ?_ fun _ _ h => ?_)
    (accounts_node ?_ fun _ _ h => ?_)
  · rcases hkind with rfl | rfl <;> decide
  · simp at h ⊢
    tauto
  · rcases hkind with rfl | rfl <;> decide
  · simpa using h

theorem scopedMember_accounts (calls : Bool) {scope : Node} :
    (scopedMember g calls scope).Accounts ofNode (ofNode scope) pre Anywhere := by
  refine accounts_symbol.andThen fun _ => .look (still_isWord _) fun isName => ?_
  refine .look (still_isSymbol _ _) fun isBraced => (memberName_accounts hg).bind fun name => ?_
  refine ifCalled_accounts hg (fun arguments => accounts_node (by decide) fun _ _ h => ?_)
    (.ite (fun _ => ?_) fun _ => accounts_node (by decide) fun _ _ h => ?_)
  · simp at h ⊢
    tauto
  · obtain ⟨mark, kind, named, field, start, stop, children⟩ := name
    refine accounts_node (by decide) fun head word h => ?_
    rcases h with h | h
    · simpa using Or.inl h
    · have hname : ofNode (.node mark kind named none start stop children) head word :=
        h.congr rfl rfl rfl rfl
      simpa using Or.inr hname
  · simpa using h

theorem subscript_accounts {array : Node} :
    (subscript g array).Accounts ofNode (ofNode array) pre Quiet := by
  refine accounts_symbol.andThen fun _ => ?_
  have hafter (index : List Node) : (symbol .closeBracket >>= fun _ =>
      node "subscript_expression" array.start (array :: index)).Accounts ofNode
        ((ofNode array).or (ofNodes index)) Anywhere Quiet :=
    accounts_symbol.andThen fun _ => accounts_node (by decide) fun _ _ h => by simpa using h
  refine .ifSymbol ?_ ?_
  · exact ((hafter []).before fun _ _ => trivial).knowing fun _ _ h => .inl h
  · exact (hg.expression _).bind fun index => (hafter [index]).knowing fun _ _ h => by simpa using h

omit hg in
/-- What is told after a step that may have extended an operand. -/
theorem extended_accounts {r : Reader Node} {operand : Node}
    (hr : r.Accounts ofNode (ofNode operand) pre post) :
    (r >>= fun n => pure (some n)).Accounts (fun found => ofNode (found.getD operand))
      (ofNode operand) pre post :=
  hr.bindThrough fun _ => accounts_pure (covers_refl _)

theorem postfixStep_accounts (operand : Node) : (postfixStep g operand).Accounts
    (fun found => ofNode (found.getD operand)) (ofNode operand) Anywhere Anywhere := by
  refine .peek fun next => ?_
  split
  · exact (extended_accounts (member_accounts hg true (.inl rfl))).before fun _ h => h.2
  · exact (extended_accounts (member_accounts hg true (.inr rfl))).before fun _ h => h.2
  · exact extended_accounts (scopedMember_accounts hg true)
  · exact extended_accounts (subscript_accounts hg).anywhere
  · refine (arguments_accounts hg).anywhere.bind fun arguments => ?_
    refine (accounts_node (by decide) fun _ _ h => ?_).bindThrough fun n => accounts_pure (covers_refl _)
    simpa using h
  · exact (accounts_pure (covers_refl _)).anywhere

theorem designatorStep_accounts (designator : Node) : (designatorStep g designator).Accounts
    (fun found => ofNode (found.getD designator)) (ofNode designator) Anywhere Anywhere := by
  refine .peek fun next => ?_
  split
  · exact (extended_accounts (member_accounts hg false (.inl rfl))).before fun _ h => h.2
  · exact (extended_accounts (member_accounts hg false (.inr rfl))).before fun _ h => h.2
  · exact extended_accounts (scopedMember_accounts hg false)
  · exact extended_accounts (subscript_accounts hg).anywhere
  · exact (accounts_pure (covers_refl _)).anywhere

theorem classDesignator_accounts :
    (classDesignator g).Accounts ofNode (nothing ()) Quiet Anywhere := by
  have hextend {r : Reader Node} {pre : Gap → Prop} (hr : r.Accounts ofNode (nothing ()) pre Anywhere) :
      (r >>= extend (designatorStep g)).Accounts ofNode (nothing ()) pre Anywhere :=
    hr.bindThrough fun n => accounts_extend (designatorStep_accounts hg) n
  have hname : qualifiedName.Accounts ofNode (nothing ()) Quiet Anywhere :=
    accounts_qualifiedName.ofNothing
  refine .peek fun next => ?_
  split
  · exact (parenthesized_accounts hg).anywhere
  · exact hextend (anyVariable_accounts hg).anywhere
  · exact hextend (anyVariable_accounts hg).anywhere
  · refine (hname.before fun _ h => h.1).bindThrough fun n => ?_
    refine .look (still_isSymbol _ _) fun _ => .ite (fun _ => ?_) fun _ => accounts_pure (covers_refl _)
    exact accounts_extend (designatorStep_accounts hg) n

omit hg in
theorem typeClause_accounts {word : Keyword} (hword : word.isHead = false)
    (hjoining : word.isJoining = true) :
    (typeClause word kind).Accounts nothing (nothing ()) Anywhere Anywhere := by
  refine .look still_position fun start =>
    .ifAcceptKeyword hword (fun _ _ h => quiet_of_isJoining h hjoining) ?_ accounts_return
  have hnames := accounts_commaSeparated accounts_qualifiedName fun _ h => h
  refine (hnames.mono (fun _ _ _ h => by simp at h) (covers_refl _)).andThen fun names => ?_
  exact (accounts_of_still still_node).andThen fun _ => accounts_return

theorem classBody_accounts : (classBody g).Accounts ofNode (nothing ()) Anywhere Quiet := by
  refine hg.members.bindThrough fun body => .ite (fun _ => accounts_failure) fun _ => ?_
  exact accounts_pure (covers_withField body _)

theorem anonymousClass_accounts :
    (anonymousClass g).Accounts ofNode (nothing ()) Quiet Quiet := by
  refine .look still_position fun start => accounts_attributes.bind fun attributes => ?_
  refine accounts_modifiers.andThen fun modifiers => accounts_keyword_head.andThen fun _ => ?_
  refine .ifSymbolOptional id (arguments_accounts hg).anywhere (fun n => covers_refl _) (fun _ h => h)
    fun arguments => ?_
  refine (typeClause_accounts rfl rfl).andThen fun base => ?_
  refine (typeClause_accounts rfl rfl).andThen fun interfaces => (classBody_accounts hg).bind fun body => ?_
  refine accounts_node (by decide) fun _ _ h => ?_
  simp at h ⊢
  tauto

omit hg in
theorem still_declaresClass : declaresClass.Still := by
  refine still_bind (still_isSymbol _ _) fun _ => still_bind (still_isKeyword _ _) fun _ => ?_
  refine still_ite (still_pure _) (still_bind (still_keyword? _) fun _ => ?_)
  exact still_bind (still_isWord _) fun _ => still_pure _

theorem creation_accounts : (creation g).Accounts ofNode (nothing ()) Quiet Anywhere := by
  refine .look still_position fun start => (accounts_keyword rfl).andThen fun _ => ?_
  refine .look still_declaresClass fun _ => .ite (fun _ => ?_) fun _ => ?_
  · exact (accounts_around (by decide) (anonymousClass_accounts hg)).anywhere
  · refine (classDesignator_accounts hg).bind fun designator => ?_
    refine .ifSymbolOptional id (arguments_accounts hg).anywhere (fun n => covers_refl _) (fun _ h => h)
      fun arguments => ?_
    exact accounts_node (by decide) fun _ _ h => by simpa using h

/-! ## Operands -/

theorem matchArm_accounts : (matchArm g).Accounts ofNode (nothing ()) Quiet Anywhere := by
  refine .look still_position fun start => .look (still_isKeyword _ _) fun _ => ?_
  refine .look (still_isSymbol _ _) fun _ => .look (still_isSymbol _ _) fun _ => ?_
  refine .ite (fun _ => (accounts_keyword rfl).andThen fun _ => ?_) fun _ => ?_
  · refine (accounts_discard (accounts_accept (fun _ h => h) fun _ h => h)).andThen fun _ => ?_
    refine accounts_symbol.andThen fun _ => (hg.expression _).bind fun value => ?_
    exact accounts_node (by decide) fun _ _ h => by simpa using h
  · refine (accounts_listOf (hg.expression _)).bind fun conditions => ?_
    refine .nodeAlso _ (by decide) (covers_refl _) fun list => (hg.expression _).bind fun value => ?_
    exact accounts_node (by decide) fun _ _ h => by simpa using h

theorem matchExpression_accounts :
    (matchExpression g).Accounts ofNode (nothing ()) Quiet Quiet := by
  refine .look still_position fun start => (accounts_keyword rfl).andThen fun _ => ?_
  refine (parenthesized_accounts hg).bind fun condition => .look still_position fun opening => ?_
  refine accounts_symbol.andThen fun _ => (accounts_listOf (matchArm_accounts hg)).bind fun arms => ?_
  exact .nodeAlso _ (by decide) (covers_refl _) fun block =>
    accounts_node (by decide) fun _ _ h => by simpa using h

omit hg in
/-- The word `from` is no head, so that nothing stands before what follows it. -/
theorem accounts_take_from : take.Accounts nothing (nothing ())
    (fun gap => (gap.Quiet ∧ InOrder gap.tokens) ∧ gap.spelling = "from".toList) Quiet := by
  refine accounts_take (fun before token tokens h head hhead hishead hfree => ?_)
    fun before token tokens h => quiet_of_not_isHead ?_ tokens
  · rw [h.1.1 head hhead hishead _ rfl] at hfree
    cases hfree
  · obtain ⟨⟨-, horder⟩, hspelling⟩ := h
    have hkeyed := horder.isKeyed token List.mem_cons_self
    change token.lexeme.spelling = "from".toList at hspelling
    generalize token.lexeme = lexeme at hkeyed hspelling
    cases lexeme with
    | word text keyword =>
      rw [Lexeme.IsKeyed] at hkeyed
      rw [Lexeme.spelling] at hspelling
      rw [hkeyed, Lexeme.isHead, Keyword.ofWord?, hspelling]
      decide
    | _ => rfl

theorem yieldExpression_accounts :
    (yieldExpression g).Accounts ofNode (nothing ()) Quiet Anywhere := by
  refine .look still_position fun start => (accounts_keyword rfl).andThen fun _ => ?_
  refine .look (still_peek _) fun next => .ite (fun _ => ?_) fun _ => ?_
  · exact (accounts_node (by decide) (covers_nothing _)).anywhere
  refine .inOrder (.spelling fun found => .ite (fun hfrom => ?_) fun _ => ?_)
  · refine ((accounts_discard accounts_take_from).before fun gap h => ?_).andThen fun _ =>
      accounts_around (by decide) (hg.expression _)
    exact ⟨h.1, h.2.trans (beq_iff_eq.mp hfrom)⟩
  · refine .look still_position fun opening => ?_
    refine ((keyedValue_accounts hg).before fun _ h => h.1.1).bind fun parts => ?_
    refine (accounts_node (by decide) fun _ _ h => by simpa using h).bindThrough fun n => ?_
    exact accounts_node (by decide) fun _ _ h => by simpa using h

omit hg in
theorem isHead_of_swallowingKind? {word : Keyword} (h : swallowingKind? word = some kind) :
    word.isHead = false ∧ kind ≠ "array_creation_expression" := by
  cases word <;> simp_all [swallowingKind?, Keyword.isHead] <;> subst h <;> decide

theorem swallowing_accounts {word : Keyword} (h : swallowingKind? word = some kind) :
    (swallowing g kind).Accounts ofNode (nothing ())
      (fun gap => gap.Quiet ∧ gap.keyword? = some word) Anywhere := by
  obtain ⟨hword, hkind⟩ := isHead_of_swallowingKind? h
  refine .look still_position fun start => ?_
  exact (accounts_discard (accounts_take_keyword hword)).andThen fun _ =>
    accounts_around hkind (hg.expression _)

omit hg in
theorem nameOperand_accounts (keyword : Option Keyword) :
    (nameOperand keyword).Accounts nothing (nothing ()) Quiet Anywhere := by
  have hleaf (kind : String) : (leaf kind).Accounts nothing (nothing ()) Quiet Anywhere :=
    accounts_leaf accounts_take_quiet
  refine .look (still_isSymbol _ _) fun scopes => ?_
  split
  · exact .ite (fun _ => hleaf _) fun _ => accounts_qualifiedName
  · exact .ite (fun _ => hleaf _) fun _ => accounts_qualifiedName
  · exact .ite (fun _ => hleaf _) fun _ => accounts_qualifiedName
  · exact .look (still_isSymbol _ _) fun _ => .ite (fun _ => accounts_qualifiedName) fun _ => hleaf _
  · exact .look (still_isSymbol _ _) fun _ => .ite (fun _ => accounts_qualifiedName) fun _ => hleaf _
  · exact .look (still_isSymbol _ _) fun _ => .ite (fun _ => accounts_qualifiedName) fun _ => hleaf _
  · exact accounts_qualifiedName

/-- An operand followed by members, elements and calls. -/
theorem postfixed_accounts {r : Reader Node} (hr : r.Accounts ofNode (nothing ()) pre post) :
    (r >>= extend (postfixStep g)).Accounts ofNode (nothing ()) pre Anywhere :=
  hr.anywhere.bindThrough fun n => accounts_extend (postfixStep_accounts hg) n

theorem wordOperand_accounts (keyword : Option Keyword) : (wordOperand g keyword).Accounts ofNode
    (nothing ()) (fun gap => gap.Quiet ∧ gap.keyword? = keyword) Anywhere := by
  have hname : (nameOperand keyword >>= extend (postfixStep g)).Accounts ofNode (nothing ())
      Quiet Anywhere := postfixed_accounts hg (nameOperand_accounts keyword).ofNothing
  have hclosure : (position >>= fun start => closure g start []).Accounts ofNode (nothing ())
      Quiet Anywhere := .look still_position fun _ => (closure_accounts hg []).knowing (covers_nothing _)
  unfold wordOperand
  split
  · exact (postfixed_accounts hg (creation_accounts hg)).before fun _ h => h.1
  · refine .before (.look (still_isSymbol _ _) fun _ => .ite (fun _ => ?_) fun _ => hname) fun _ h => h.1
    exact postfixed_accounts hg (matchExpression_accounts hg)
  · refine .before (.look (still_isSymbol _ _) fun _ => .ite (fun _ => ?_) fun _ => hname) fun _ h => h.1
    exact postfixed_accounts hg (keywordArray_accounts hg)
  · refine .before (.look (still_isSymbol _ _) fun _ => .ite (fun _ => ?_) fun _ => hname) fun _ h => h.1
    exact (keywordList_accounts hg).anywhere
  · exact (yieldExpression_accounts hg).before fun _ h => h.1
  · refine .look still_position fun start => ?_
    exact (accounts_discard (accounts_take_keyword rfl)).andThen fun _ =>
      accounts_around (by decide) (hg.expression _)
  · exact hclosure.before fun _ h => h.1
  · exact hclosure.before fun _ h => h.1
  · refine .before (.look (still_isKeyword _ _) fun _ => .look (still_isKeyword _ _) fun _ => ?_)
      fun _ h => h.1
    exact .ite (fun _ => hclosure) fun _ => hname
  · split
    · exact swallowing_accounts hg ‹_›
    · exact hname.before fun _ h => h.1
  · exact hname.before fun _ h => h.1

theorem cast_accounts : (cast g).Accounts ofNode (nothing ()) pre Anywhere := by
  refine .look still_position fun start => accounts_symbol.andThen fun _ => ?_
  refine (accounts_leaf accounts_take_quiet).andThen fun type => accounts_symbol.andThen fun _ => ?_
  refine (hg.expression _).bind fun value => accounts_node (by decide) fun _ _ h => ?_
  simp at h ⊢
  tauto

/-- A symbol with the operand behind it. -/
theorem prefixed_accounts {mark : Symbol} {level : Nat} (hkind : kind ≠ "array_creation_expression") :
    (position >>= fun start => operator mark.spelling >>= fun operator =>
      g.expression level >>= fun argument =>
        node kind start [operator, argument.withField "argument"]).Accounts ofNode (nothing ())
      (fun gap => gap.next? = some (.symbol mark)) Anywhere := by
  refine .look still_position fun start => ?_
  refine (accounts_operator accounts_take_symbol).andThen fun operator => ?_
  refine (hg.expression _).bind fun argument => accounts_node hkind fun _ _ h => ?_
  simp at h ⊢
  tauto

theorem symbolOperand_accounts (mark : Symbol) : (symbolOperand g mark).Accounts ofNode (nothing ())
    (fun gap => gap.next? = some (.symbol mark)) Anywhere := by
  unfold symbolOperand
  split
  · exact postfixed_accounts hg (anyVariable_accounts hg)
  · exact (postfixed_accounts hg accounts_qualifiedName.ofNothing).before fun _ h => quiet_of_symbol h
  · exact postfixed_accounts hg (bracketArray_accounts hg)
  · refine .look ?_ fun _ => .ite (fun _ => cast_accounts hg) fun _ => ?_
    · refine still_bind (still_isSymbol _ _) fun _ => still_bind (still_isSymbol _ _) fun _ => ?_
      exact still_bind (still_spelling _) fun _ => still_pure _
    · exact postfixed_accounts hg (parenthesized_accounts hg)
  · refine .look still_position fun start => ?_
    refine (accounts_attributes.before fun _ h => quiet_of_symbol h).bind fun attributes => ?_
    exact (closure_accounts hg attributes).knowing fun _ _ h => by simpa using h
  · exact prefixed_accounts hg (by decide)
  · exact prefixed_accounts hg (by decide)
  · exact prefixed_accounts hg (by decide)
  · exact prefixed_accounts hg (by decide)
  · refine .look still_position fun start => (accounts_discard accounts_take_symbol).andThen fun _ => ?_
    exact accounts_around (by decide) (hg.expression _)
  · exact prefixed_accounts hg (by decide)
  · exact prefixed_accounts hg (by decide)
  · exact accounts_failure

theorem primary_accounts : (primary g).Accounts ofNode (nothing ()) Quiet Anywhere := by
  refine .peek fun next => ?_
  split
  · exact postfixed_accounts hg (anyVariable_accounts hg)
  · refine (wordOperand_accounts hg _).before fun gap h => ⟨h.1, ?_⟩
    rw [Gap.keyword?, h.2]
    rfl
  · exact (symbolOperand_accounts hg _).before fun _ h => h.2
  · split
    · exact (postfixed_accounts hg (accounts_leaf accounts_take_quiet).ofNothing).before fun _ h => h.1
    · exact accounts_failure
  · exact accounts_failure

theorem assignment_accounts (left : Node) :
    (assignment g left).Accounts ofNode (ofNode left) Anywhere Anywhere := by
  refine .peek fun next => ?_
  split
  · refine accounts_symbol.andThen fun _ => ?_
    have hnode {kind : String} (hkind : kind ≠ "array_creation_expression") :
        (g.expression Level.assigned >>= fun right => node kind left.start
          [(asTarget left).withField "left", right.withField "right"]).Accounts ofNode (ofNode left)
            Quiet Anywhere := by
      refine (hg.expression _).bind fun right => accounts_node hkind fun _ _ h => ?_
      rcases h with h | h
      · simpa using Or.inl (ofNode_asTarget h)
      · simpa using Or.inr h
    exact .ifAccept (hnode (by decide)) (hnode (by decide))
  · refine .ite (fun _ => ?_) fun _ => (accounts_pure (covers_refl _)).anywhere
    refine ((accounts_operator accounts_take_symbol).before fun _ h => h.2).andThen fun operator => ?_
    refine (hg.expression _).bind fun right => accounts_node (by decide) fun _ _ h => ?_
    simp at h ⊢
    tauto
  · exact (accounts_pure (covers_refl _)).anywhere

theorem operand_accounts : (operand g).Accounts ofNode (nothing ()) Quiet Anywhere := by
  refine (primary_accounts hg).bindThrough fun first => .peek fun next => ?_
  have hupdate (kind : String) (mark : Symbol) : (operator kind >>= fun operator =>
      node "update_expression" first.start [first.withField "argument", operator]).Accounts ofNode
        (ofNode first) (fun gap => gap.next? = some (.symbol mark)) Anywhere := by
    refine (accounts_operator accounts_take_symbol).andThen fun operator => ?_
    refine (accounts_node (by decide) fun _ _ h => ?_).anywhere
    simp at h ⊢
    tauto
  split
  · exact (hupdate _ _).before fun _ h => h.2
  · exact (hupdate _ _).before fun _ h => h.2
  · refine .ite (fun _ => ?_) fun _ => (accounts_pure (covers_refl _)).anywhere
    exact (assignment_accounts hg first).before fun _ h => h.1

/-! ## Operators -/

omit hg in
theorem not_isHead_of_infixLevel? {lexeme : Lexeme} {level : Nat × Bool}
    (h : infixLevel? lexeme = some level) : lexeme.isHead = false ∧ lexeme.isFree = false := by
  unfold infixLevel? at h
  split at h <;> first | exact ⟨rfl, rfl⟩ | cases h

theorem operatorStep_accounts (level : Nat) (left : Node) : (operatorStep g level left).Accounts
    (fun found => ofNode (found.getD left)) (ofNode left) Anywhere Anywhere := by
  have hnone {pre : Gap → Prop} : (pure none : Reader (Option Node)).Accounts
      (fun found => ofNode (found.getD left)) (ofNode left) pre Anywhere :=
    (accounts_pure (covers_refl _)).anywhere
  have hbinary {operator right : Node} : (node "binary_expression" left.start
      [left.withField "left", operator, right.withField "right"]).Accounts ofNode
        ((ofNode left).or (ofNode right)) Anywhere Anywhere := by
    refine accounts_node (by decide) fun _ _ h => ?_
    simp at h ⊢
    tauto
  have hreturn {r : Reader Node} {known : Account} {pre : Gap → Prop}
      (hr : r.Accounts ofNode known pre Anywhere) :
      (r >>= fun n => pure (some n)).Accounts (fun found => ofNode (found.getD left)) known pre
        Anywhere := hr.bindThrough fun _ => accounts_pure (covers_refl _)
  refine .peek fun next => ?_
  split
  · refine .ite (fun _ => hnone) fun _ => accounts_symbol.andThen fun _ => ?_
    have hafter (whenTrue : List Node) : (do
        symbol .colon
        let whenFalse ← g.expression (Level.conditional + 1)
        return some (← node "conditional_expression" left.start
          ([left.withField "condition"] ++ whenTrue ++ [whenFalse.withField "alternative"]))).Accounts
        (fun found => ofNode (found.getD left)) ((ofNode left).or (ofNodes whenTrue)) Anywhere
          Anywhere := by
      refine accounts_symbol.andThen fun _ => (hg.expression _).bind fun whenFalse => hreturn ?_
      refine accounts_node (by decide) fun _ _ h => ?_
      simp at h ⊢
      tauto
    refine .ifSymbol ?_ ?_
    · exact ((hafter []).before fun _ _ => trivial).knowing fun _ _ h => .inl h
    · exact (hg.expression _).bind fun n => (hafter _).knowing fun _ _ h => by simpa using h
  · refine .ite (fun _ => hnone) fun _ => ?_
    refine (accounts_operator (accounts_take_next rfl rfl)).andThen fun operator => ?_
    exact (classDesignator_accounts hg).bind fun type => hreturn hbinary
  · split
    · exact hnone
    · rename_i hlevel
      obtain ⟨hhead, hfree⟩ := not_isHead_of_infixLevel? hlevel
      refine .ite (fun _ => hnone) fun _ => ?_
      refine (accounts_operator (accounts_take_next hhead hfree)).andThen fun operator => ?_
      exact (hg.expression _).bind fun right => hreturn hbinary
  · exact hnone

theorem expression_accounts (level : Nat) :
    (expression g level).Accounts ofNode (nothing ()) Quiet Anywhere :=
  (operand_accounts hg).bindThrough fun n => accounts_extend (operatorStep_accounts hg level) n

omit hg in
/-- The first node of a sequence holds all the others. -/
theorem nestSequence_accounts (items : List Node) : (nestSequence items).Accounts
    (fun found => ofNodes found.head?.toList) (ofNodes items) pre pre := by
  induction items using nestSequence.induct with
  | case1 => exact accounts_pure fun _ _ h => h
  | case2 only => exact accounts_pure fun _ _ h => h
  | case3 first rest hrest ih =>
    rw [nestSequence]
    · refine .knowing (ih.bindAlso (P := fun _ => True) (fun _ _ _ _ => trivial) fun inner _ => ?_)
        fun _ _ h => ofAny_cons.mp h
      split
      · exact accounts_pure fun _ _ h => by simpa using h
      · refine (accounts_node (by decide) fun _ _ h => by simpa using h).bindThrough fun n => ?_
        exact accounts_pure fun _ _ h => by simpa using h
    · exact hrest

theorem sequenceExpression_accounts :
    (sequenceExpression g).Accounts ofNodes (nothing ()) Quiet Anywhere := by
  refine (accounts_commaSeparated (hg.expression _) fun _ h => h).bindThrough fun items => ?_
  refine (nestSequence_accounts items).mono (fun found head word h => ?_) (covers_refl _)
  obtain ⟨n, hn, h⟩ := h
  exact ⟨n, List.mem_of_mem_head? (by simpa using hn), h⟩

end Operands

end Namespacer.Grammar
