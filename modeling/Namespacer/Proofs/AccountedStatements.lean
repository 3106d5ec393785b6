import Namespacer.Proofs.AccountedDeclarations

/-!
# Statements and whole files account for what they pass

A statement begins and ends where no suspect pair stands. Some readers of statements go back to
where they began if what they find does not fit; their results are those of the reader that goes
on from there.

* `accountsFor_of_parse?`: in a text that the grammar accepts, a node of its tree explains every suspect
  pair.
-/

namespace Namespacer.Grammar

open Reader
open Concrete
open Account Gap

/-! ## Readers that go back -/

namespace Reader

variable {α β : Type} {told : α → Account} {known : Account} {pre post : Gap → Prop}
  {undone : α × Input → Prop} {r : Reader α}

open scoped Classical in
/-- A reader with some of its results taken away. -/
noncomputable def without (r : Reader α) (undone : α × Input → Prop) : Reader α :=
  fun input => (r.run input).filter fun result => ¬ undone result

theorem run_without {input : Input} {result : α × Input} :
    (r.without undone).run input = some result ↔ r.run input = some result ∧ ¬ undone result := by
  change (r.run input).filter _ = some result ↔ _
  rw [Option.filter_eq_some_iff]
  simp

theorem without_bind {s : Reader β} {f : β → Reader α} :
    (s >>= f).without undone = s >>= fun value => (f value).without undone := by
  refine StateT.ext fun input => Option.ext fun result => ?_
  simp only [run_without, StateT.run_bind, Option.bind_eq_bind, Option.bind_eq_some_iff]
  constructor
  · rintro ⟨⟨middle, hs, hf⟩, hundone⟩
    exact ⟨middle, hs, hf, hundone⟩
  · rintro ⟨middle, hs, hf, hundone⟩
    exact ⟨⟨middle, hs, hf⟩, hundone⟩

theorem without_ite {c : Prop} [Decidable c] {s : Reader α} :
    (if c then r else s).without undone = if c then r.without undone else s.without undone :=
  apply_ite (·.without undone) c r s

theorem Accounts.without (h : r.Accounts told known pre post) :
    (r.without undone).Accounts told known pre post := by
  intro before input value rest hrun
  exact h before input value rest (run_without.mp hrun).1

/-- What one of some readers does from an input. -/
def DoneBy (readers : List (Reader α)) (input : Input) (result : α × Input) : Prop :=
  ∃ r ∈ readers, r.run input = some result

/-- A reader that may go back to where it began and read something else from there. -/
theorem Accounts.orElse {f : Input → Reader α} (others : List (Reader α))
    (hothers : ∀ r ∈ others, r.Accounts told known pre post)
    (hf : ∀ input, ((f input).without (DoneBy others input)).Accounts told known pre post) :
    (get >>= f).Accounts told known pre post := by
  intro before input value rest hrun horder hends hgap
  have hrun : (f input).run input = some (value, rest) := hrun
  by_cases hdone : DoneBy others input (value, rest)
  · obtain ⟨r, hr, hrun⟩ := hdone
    exact hothers r hr before input value rest hrun horder hends hgap
  · exact hf input before input value rest (run_without.mpr ⟨hrun, hdone⟩) horder hends hgap

theorem accounts_goBack {others : List (Reader α)} {input : Input} (hr : r ∈ others) :
    (set input >>= fun _ => r.without (DoneBy others input)).Accounts told known pre post := by
  intro before current value rest hrun
  obtain ⟨hrun, hundone⟩ := run_without.mp (without_bind ▸ hrun)
  exact absurd ⟨r, hr, hrun⟩ hundone

/-- A reader that has to end with all tokens. -/
theorem Accounts.atEnd (hr : r.Accounts told known pre post) (hstill : r.Still) :
    (get >>= fun input => if input.tokens.isEmpty = true then r else failure).Accounts told known
      pre (fun gap => gap.tokens = []) := by
  intro before input value rest hrun horder hends hgap
  have hrun : (if input.tokens.isEmpty = true then r else failure).run input = some (value, rest) :=
    hrun
  split at hrun
  · rename_i hempty
    obtain ⟨hcovers, after, hafter, hpasses, -⟩ := hr before input value rest hrun horder hends hgap
    obtain rfl := hstill _ _ _ hrun
    exact ⟨hcovers, after, hafter, hpasses, List.isEmpty_iff.mp hempty⟩
  · cases hrun

end Reader

variable {g : Nesting} {kind : String} {start : Nat} {pre post : Gap → Prop}

/-! ## Literal text -/

/-- A token that is neither a head nor free, as a leaf, if it comes next. -/
theorem ifLeaf_accounts {β : Type} {told : β → Account} {known : Account} {lexeme : Lexeme}
    (hhead : lexeme.isHead = false) (hfree : lexeme.isFree = false) {next : List Node → Reader β}
    (hnext : ∀ found, (next found).Accounts told known Quiet post) :
    (peek >>= fun found => if (found == some lexeme) = true then
      leaf kind >>= fun n => pure [n] >>= next else pure [] >>= next).Accounts told known Quiet
        post := by
  refine .peek fun found => .ite (fun hfound => ?_) fun _ => (hnext []).before fun _ h => h.1
  obtain rfl := beq_iff_eq.mp hfound
  exact (accounts_leaf (accounts_take_next hhead hfree)).andThen fun n => hnext [n]

theorem interpolation_accounts : interpolation.Accounts nothing (nothing ()) pre Quiet := by
  refine .look still_position fun start => .peek fun next => ?_
  split
  · refine (accounts_leaf (accounts_take_next rfl rfl)).andThen fun close => ?_
    refine ifLeaf_accounts rfl rfl fun html => ifLeaf_accounts rfl rfl fun opening => ?_
    exact accounts_of_still still_node
  · exact accounts_failure

theorem still_keywordBehind (rounds skip : Nat) : (keywordBehind rounds skip).Still := by
  induction rounds generalizing skip with
  | zero => exact still_pure _
  | succ rounds ih =>
    refine still_bind (still_peek _) fun next => ?_
    split
    · exact ih _
    · exact ih _
    · exact ih _
    · exact still_pure _
    · exact still_pure _

theorem interpolationsBefore_accounts (keywords : List Keyword) :
    (interpolationsBefore keywords).Accounts nothing (nothing ()) Quiet Quiet := by
  refine .look still_get fun _ => .look (still_keywordBehind _ _) fun behind => ?_
  split
  · refine .ite (fun _ => accounts_collect_nothing ?_) fun _ => accounts_return
    refine .look (still_peek _) fun _ => .ite (fun _ => ?_) fun _ => accounts_return
    exact interpolation_accounts.andThen fun _ => accounts_return
  · exact accounts_return

/-- What is split from the end of a block stands behind the rest of it. -/
theorem splitTrailing_append (items : List Node) :
    (splitTrailing items).1 ++ (splitTrailing items).2 = items := by
  have hsuffix : (splitTrailing items).2 <:+ items :=
    List.reverse_prefix.mp (by simpa [splitTrailing] using List.takeWhile_prefix _)
  calc (splitTrailing items).1 ++ (splitTrailing items).2
      = (splitTrailing items).1 ++ items.drop (items.length - (splitTrailing items).2.length) :=
        congrArg _ (List.suffix_iff_eq_drop.mp hsuffix)
    _ = items := List.take_append_drop _ items

theorem ofNodes_map {f : Node → Node} (hf : ∀ n, Covers (ofNode (f n)) (ofNode n))
    {parts : List Node} {head word : Token} (h : ofNodes parts head word) :
    ofNodes (parts.map f) head word := by
  obtain ⟨n, hn, h⟩ := h
  exact ⟨f n, List.mem_map_of_mem hn, hf n head word h⟩

/-! ## Blocks -/

section Blocks

variable (hg : g.Accounts)
include hg

theorem statements_accounts : (statements g).Accounts ofNodes (nothing ()) Quiet Quiet := by
  have hnone {pre : Gap → Prop} : (pure none : Reader (Option Node)).Accounts
      (fun found => ofNodes found.toList) (nothing ()) pre pre := accounts_pure (covers_nothing _)
  refine accounts_collect ofNode (.peek fun next => ?_)
  have hquiet : ∀ gap : Gap, gap.Quiet ∧ gap.next? = next → gap.Quiet := fun _ h => h.1
  split
  · exact hnone.before hquiet
  · exact hnone.before hquiet
  · exact (interpolation_accounts.ofNothing).found
  · exact .before (.ite (fun _ => hnone) fun _ => (hg.statement _).found) hquiet
  · exact (hg.statement _).found.before hquiet

theorem compound_accounts : (compound g).Accounts ofNode (nothing ()) pre Quiet := by
  refine .look still_position fun start => accounts_symbol.andThen fun _ => ?_
  refine (statements_accounts hg).bind fun items => accounts_symbol.andThen fun _ => ?_
  exact accounts_node (by decide) fun _ _ h => by simpa using h

/-- What a block after a colon and the literal text behind it tell. -/
def ofBlock (block : Node × List Node) : Account := (ofNode block.1).or (ofNodes block.2)

theorem colonBlock_accounts : (colonBlock g).Accounts ofBlock (nothing ()) pre Quiet := by
  refine .look still_position fun start => accounts_symbol.andThen fun _ => ?_
  refine (statements_accounts hg).bind fun items => accounts_pure fun head word h => ?_
  have hitems : ofNodes ((splitTrailing items).1 ++ (splitTrailing items).2) head word := by
    rw [splitTrailing_append]
    simpa using h
  exact (ofAny_append.mp hitems).imp_left (ofNode_of_children (by simp))

theorem loopBody_accounts (clauses : Clauses) {close : Keyword} (hclose : close.isHead = false) :
    (loopBody g clauses close).Accounts ofNodes (nothing ()) Quiet Quiet := by
  refine .ifSymbol ?_ ?_
  · refine (colonBlock_accounts hg).bind fun block => (accounts_keyword hclose).andThen fun _ => ?_
    exact endOfStatement_accounts.andThen fun _ => accounts_pure fun _ _ h => by simpa [ofBlock] using h
  · exact (hg.statement _).bind fun n => accounts_pure fun _ _ h => by simpa using h

/-! ## Conditionals -/

theorem condition_accounts : (condition g).Accounts ofNode (nothing ()) pre Quiet :=
  (parenthesized_accounts hg).asChild _

omit hg in
theorem accounts_acceptKeyword {word : Keyword} (hword : word.isHead = false) :
    (acceptKeyword word).Accounts nothing (nothing ()) Quiet Quiet := by
  rw [← bind_pure (acceptKeyword word)]
  exact .ifAcceptKeyword hword (fun _ h _ => h) accounts_return accounts_return

theorem plainElseIf_accounts (clauses : Clauses) : (plainElseIf g clauses).Accounts
    (fun found => ofAny ofNodes found.toList) (nothing ()) Quiet Quiet := by
  have hnone : (pure none : Reader (Option (List Node))).Accounts
      (fun found => ofAny ofNodes found.toList) (nothing ()) Quiet Quiet :=
    accounts_pure (covers_nothing _)
  refine .orElse [pure none] (by simpa using hnone) fun input => ?_
  simp only [without_bind, without_ite]
  refine (interpolationsBefore_accounts _).andThen fun before => .look still_position fun start => ?_
  refine (accounts_acceptKeyword rfl).andThen fun _ => .ite (fun _ => hnone.without) fun _ => ?_
  refine (condition_accounts hg).bind fun condition => .look (still_isSymbol _ _) fun _ => ?_
  refine .ite (fun _ => ?_) fun _ => ?_
  · exact accounts_goBack (by simp)
  · refine (hg.statement _).bind fun body => ?_
    refine (accounts_node (by decide) fun _ _ h => by simpa using h).bindThrough fun clause => ?_
    exact (accounts_pure fun _ _ h => by simpa using Or.inr h).without

theorem plainElse_accounts (clauses : Clauses) :
    (plainElse g clauses).Accounts ofNodes (nothing ()) Quiet Quiet := by
  have hnone : (pure [] : Reader (List Node)).Accounts ofNodes (nothing ()) Quiet Quiet :=
    accounts_pure (covers_nothing _)
  refine .orElse [pure []] (by simpa using hnone) fun input => ?_
  simp only [without_bind, without_ite]
  refine (interpolationsBefore_accounts _).andThen fun before => .look still_position fun start => ?_
  refine .look (still_isKeyword _ _) fun _ => .look (still_isSymbol _ _) fun _ => ?_
  refine .ite (fun _ => (accounts_keyword rfl).andThen fun _ => ?_) fun _ => accounts_goBack (by simp)
  refine (hg.statement _).bind fun body => ?_
  refine (accounts_node (by decide) fun _ _ h => by simpa using h).bindThrough fun clause => ?_
  exact (accounts_pure fun _ _ h => by simpa using Or.inr h).without

theorem colonClause_accounts : (colonClause g).Accounts
    (fun found => ofAny ofNodes found.toList) (nothing ()) Quiet Quiet := by
  refine .look still_position fun start => .ifAcceptKeyword rfl (fun _ h _ => h) ?_
    (.ifAcceptKeyword rfl (fun _ h _ => h) ?_ (accounts_pure (covers_nothing _)))
  · refine (condition_accounts hg).bind fun condition => (colonBlock_accounts hg).bind fun block => ?_
    refine accounts_pure fun head word h => ?_
    have hclause (h : ofNodes [condition, block.1] head word) : ofNode (.node () "else_if_clause" true
        (some "alternative") start block.1.stop [condition, block.1]) head word :=
      ofNode_of_children (by simp) h
    simp [ofBlock] at h hclause ⊢
    tauto
  · refine (colonBlock_accounts hg).bind fun block => accounts_pure fun head word h => ?_
    have hclause (h : ofNodes [block.1] head word) : ofNode (.node () "else_clause" true
        (some "alternative") start block.1.stop [block.1]) head word :=
      ofNode_of_children (by simp) h
    simp [ofBlock] at h hclause ⊢
    tauto

theorem plainIf_accounts (clauses inside : Clauses) (condition : Node) :
    (plainIf g clauses inside start condition).Accounts ofNode (ofNode condition) Quiet Quiet := by
  refine (hg.statement _).bind fun body => .ite (fun _ => ?_) fun _ => ?_
  · exact accounts_node (by decide) fun _ _ h => by simpa using h
  · refine (accounts_collect _ (plainElseIf_accounts hg inside)).bind fun conditions => ?_
    refine (plainElse_accounts hg clauses).bind fun last => accounts_node (by decide) fun _ _ h => ?_
    simp at h ⊢
    tauto

theorem ifStatement_accounts (clauses : Clauses) :
    (ifStatement g clauses).Accounts ofNode (nothing ()) Quiet Quiet := by
  refine .look still_position fun start => (accounts_keyword rfl).andThen fun _ => ?_
  refine (condition_accounts hg).bindThrough fun condition => .ifSymbol ?_ ?_
  · refine (colonBlock_accounts hg).bind fun block => ?_
    refine (accounts_collect _ (colonClause_accounts hg)).bind fun alternatives => ?_
    refine (accounts_keyword rfl).andThen fun _ => endOfStatement_accounts.andThen fun _ => ?_
    refine accounts_node (by decide) fun _ _ h => ?_
    simp [ofBlock] at h ⊢
    tauto
  · refine .ite (fun h => nomatch h) fun _ => .ite (fun _ => ?_)
      fun _ => plainIf_accounts hg clauses clauses condition
    refine .orElse [plainIf g .own .inner start condition]
      (by simpa using plainIf_accounts hg .own .inner condition) fun input => ?_
    simp only [without_bind, without_ite]
    refine (plainIf_accounts hg .own .outer condition).bindThrough fun whole => ?_
    refine (plainElseIf_accounts hg .inner).bind fun further => ?_
    refine (plainElse_accounts hg .inner).bind fun last => ?_
    refine .ite (fun _ => accounts_goBack (by simp)) fun hnothing => ?_
    obtain ⟨rfl, rfl⟩ : further = none ∧ last = [] := by simpa using hnothing
    exact (accounts_pure fun _ _ h => by simpa using h).without

/-! ## Loops -/

theorem whileStatement_accounts (clauses : Clauses) :
    (whileStatement g clauses).Accounts ofNode (nothing ()) Quiet Quiet := by
  refine .look still_position fun start => (accounts_keyword rfl).andThen fun _ => ?_
  refine (condition_accounts hg).bind fun condition => (loopBody_accounts hg clauses rfl).bind fun body => ?_
  exact accounts_node (by decide) fun _ _ h => by simpa using h

theorem doStatement_accounts : (doStatement g).Accounts ofNode (nothing ()) Quiet Quiet := by
  refine .look still_position fun start => (accounts_keyword rfl).andThen fun _ => ?_
  refine (hg.statement _).bind fun body => (interpolationsBefore_accounts _).andThen fun between => ?_
  refine (accounts_keyword rfl).andThen fun _ => (condition_accounts hg).bind fun condition => ?_
  refine endOfStatement_accounts.andThen fun _ => accounts_node (by decide) fun _ _ h => ?_
  simp at h ⊢
  tauto

theorem loopPart_accounts (field : String) (close : Symbol) :
    (loopPart g field close).Accounts ofNodes (nothing ()) Quiet Quiet := by
  refine .ifAccept (accounts_pure (covers_nothing _)) ?_
  refine (sequenceExpression_accounts hg).bind fun parts => accounts_symbol.andThen fun _ => ?_
  exact accounts_pure fun _ _ h => ofNodes_map (fun n => covers_withField n field) (by simpa using h)

theorem forStatement_accounts (clauses : Clauses) :
    (forStatement g clauses).Accounts ofNode (nothing ()) Quiet Quiet := by
  refine .look still_position fun start => (accounts_keyword rfl).andThen fun _ => ?_
  refine accounts_symbol.andThen fun _ => (loopPart_accounts hg _ _).bind fun first => ?_
  refine (loopPart_accounts hg _ _).bind fun condition => (loopPart_accounts hg _ _).bind fun update => ?_
  refine .ifAccept ?_ ?_
  · refine (statements_accounts hg).bind fun items => (accounts_keyword rfl).andThen fun _ => ?_
    refine endOfStatement_accounts.andThen fun _ => accounts_node (by decide) fun head word h => ?_
    have hbody (h : ofNodes items head word) : ofNodes (items.map fun item =>
        if item.kind == "text_interpolation" then item else item.withField "body") head word := by
      refine ofNodes_map (fun n => ?_) h
      split
      · exact covers_refl _
      · exact covers_withField n _
    simp only [ofNodes, ofAny_append, or_iff, nothing_iff] at h hbody ⊢
    tauto
  · refine (hg.statement _).bind fun body => accounts_node (by decide) fun _ _ h => ?_
    simp at h ⊢
    tauto

theorem loopTarget_accounts : (loopTarget g).Accounts ofNode (nothing ()) Quiet Anywhere := by
  refine .ifSymbol (byReference_accounts (hg.expression _)) ?_
  exact (hg.expression _).bindThrough fun n => accounts_pure fun _ _ h => ofNode_asTarget h

theorem foreachStatement_accounts (clauses : Clauses) :
    (foreachStatement g clauses).Accounts ofNode (nothing ()) Quiet Quiet := by
  refine .look still_position fun start => (accounts_keyword rfl).andThen fun _ => ?_
  refine accounts_symbol.andThen fun _ => (hg.expression _).bind fun collection => ?_
  refine (accounts_keyword_joining rfl rfl).andThen fun _ => .look still_position fun opening => ?_
  refine (loopTarget_accounts hg).bind fun first => ?_
  have hafter (target : Node) : (do
      symbol .closeParen
      let body ← loopBody g clauses .endforeach_
      node "foreach_statement" start ([collection, target] ++ body)).Accounts ofNode
      (((nothing ()).or (ofNode collection)).or (ofNode target)) Anywhere Quiet := by
    refine accounts_symbol.andThen fun _ => (loopBody_accounts hg clauses rfl).bind fun body => ?_
    refine accounts_node (by decide) fun _ _ h => ?_
    simp at h ⊢
    tauto
  refine .ifAccept ?_ (hafter first)
  refine (loopTarget_accounts hg).bind fun value => ?_
  refine .nodeAlso _ (by decide) (fun _ _ h => ?_) hafter
  simp at h ⊢
  tauto

/-! ## Cases and caught errors -/

theorem switchCase_accounts : (switchCase g).Accounts
    (fun found => ofAny ofNodes found.toList) (nothing ()) Quiet Quiet := by
  refine .look still_position fun start => .look (still_peek _) fun _ => .ite (fun _ => ?_) fun _ => ?_
  · refine interpolation_accounts.andThen fun n => accounts_pure (covers_nothing _)
  refine (accounts_acceptKeyword rfl).andThen fun _ => (accounts_acceptKeyword rfl).andThen fun _ => ?_
  extract_lets afterHead
  have hnone : (afterHead none).Accounts (fun found => ofAny ofNodes found.toList) (nothing ())
      Quiet Quiet := accounts_pure (covers_nothing _)
  have hafter : ∀ kind value, kind ≠ "array_creation_expression" →
      (afterHead (some (kind, value))).Accounts (fun found => ofAny ofNodes found.toList)
        (ofNodes value) Anywhere Quiet := by
    intro kind value hkind
    have hclause : (statements g >>= fun items => node kind start (value ++ (splitTrailing items).1)
        >>= fun clause => pure (some (clause :: (splitTrailing items).2))).Accounts
        (fun found => ofAny ofNodes found.toList) (ofNodes value) Quiet Quiet := by
      refine (statements_accounts hg).bind fun items => .nodeAlso (ofNodes (splitTrailing items).2) hkind
        (fun head word h => ?_) fun clause => accounts_pure fun _ _ h => ?_
      · rw [← splitTrailing_append items] at h
        simp at h ⊢
        tauto
      · simp at h ⊢
        tauto
    exact .ifAccept hclause (accounts_symbol.andThen fun _ => hclause)
  clear_value afterHead
  refine .ite (fun _ => ?_) fun _ => .ite (fun _ => ?_) fun _ => hnone
  · refine (hg.expression _).bind fun value => (hafter _ _ (by decide)).knowing fun _ _ h => ?_
    simpa using h
  · exact ((hafter _ _ (by decide)).before fun _ _ => trivial).knowing (covers_nothing _)

theorem switchStatement_accounts : (switchStatement g).Accounts ofNode (nothing ()) Quiet Quiet := by
  refine .look still_position fun start => (accounts_keyword rfl).andThen fun _ => ?_
  refine (condition_accounts hg).bind fun condition => .look still_position fun opening => ?_
  refine (accounts_accept (fun _ h => h) fun _ h => h).andThen fun hasColon => ?_
  extract_lets afterOpening
  have hafter : (afterOpening ()).Accounts ofNode ((nothing ()).or (ofNode condition)) Quiet Quiet := by
    refine (accounts_collect _ (switchCase_accounts hg)).bind fun groups => ?_
    have hnode : (node "switch_block" opening groups.flatten >>= fun block =>
        node "switch_statement" start [condition, block.withField "body"]).Accounts ofNode
          (((nothing ()).or (ofNode condition)).or (ofAny ofNodes groups)) Quiet Quiet := by
      refine .nodeAlso (ofNode condition) (by decide) (fun _ _ h => by simpa using h) fun block => ?_
      exact accounts_node (by decide) fun _ _ h => by simpa using h
    refine .ite (fun _ => (accounts_keyword rfl).andThen fun _ => ?_) fun _ => ?_
    · exact endOfStatement_accounts.andThen fun _ => hnode
    · exact accounts_symbol.andThen fun _ => hnode
  clear_value afterOpening
  exact .ite (fun _ => hafter) fun _ => accounts_symbol.andThen fun _ => hafter

theorem catchClause_accounts : (catchClause g).Accounts
    (fun found => ofAny ofNodes found.toList) (nothing ()) Quiet Quiet := by
  refine (interpolationsBefore_accounts _).andThen fun before => .look still_position fun start => ?_
  refine .ifAcceptKeyword rfl (fun _ h _ => h) ?_ (.ifAcceptKeyword rfl (fun _ h _ => h) ?_
    (accounts_pure (covers_nothing _)))
  · refine accounts_symbol.andThen fun _ => .look still_position fun opening => ?_
    refine (accounts_namedType _).andThen fun first => ?_
    refine (accounts_collect_nothing (.ifAccept ?_ accounts_return)).andThen fun rest => ?_
    · exact (accounts_namedType _).andThen fun _ => accounts_return
    refine (accounts_of_still still_node).andThen fun types => .look (still_peek _) fun _ => ?_
    have hafter (name : List Node) : (do
        symbol .closeParen
        let body ← body g
        let clause ← node "catch_clause" start ([types.withField "type"] ++ name ++ [body])
        return some (before ++ [clause])).Accounts (fun found => ofAny ofNodes found.toList)
        (nothing ()) Anywhere Quiet := by
      refine accounts_symbol.andThen fun _ => (body_accounts hg).bind fun body => ?_
      refine (accounts_node (by decide) fun _ _ h => ?_).bindThrough fun clause => ?_
      · simp at h ⊢
        tauto
      · exact accounts_pure fun _ _ h => by simpa using Or.inr h
    refine .ite (fun _ => accounts_plainVariable.andThen fun name => ?_) fun _ => hafter []
    exact (hafter _).before fun _ _ => trivial
  · refine (body_accounts hg).bind fun body => ?_
    refine (accounts_node (by decide) fun _ _ h => by simpa using h).bindThrough fun clause => ?_
    exact accounts_pure fun _ _ h => by simpa using Or.inr h

theorem tryStatement_accounts : (tryStatement g).Accounts ofNode (nothing ()) Quiet Quiet := by
  refine .look still_position fun start => (accounts_keyword rfl).andThen fun _ => ?_
  refine (body_accounts hg).bind fun body => ?_
  refine (accounts_collect _ (catchClause_accounts hg)).bind fun clauses => ?_
  exact accounts_node (by decide) fun _ _ h => by simpa using h

/-! ## Simple statements -/

theorem keywordStatement_accounts (hkind : kind ≠ "array_creation_expression") {word : Keyword}
    (hword : word.isHead = false) : (keywordStatement g kind).Accounts ofNode (nothing ())
      (fun gap => gap.Quiet ∧ gap.keyword? = some word) Quiet := by
  refine .look still_position fun start => ?_
  refine (accounts_discard (accounts_take_keyword hword)).andThen fun _ => ?_
  refine .look (still_peek _) fun _ => .ite (fun _ => ?_) fun _ => ?_
  · exact endOfStatement_accounts.andThen fun _ => accounts_node hkind (covers_nothing _)
  · refine (hg.expression _).bind fun value => ?_
    rw [pure_bind]
    refine endOfStatement_accounts.andThen fun _ => ?_
    exact accounts_node hkind fun _ _ h => by simpa using h

theorem echoStatement_accounts : (echoStatement g).Accounts ofNode (nothing ()) Quiet Quiet := by
  refine .look still_position fun start => (accounts_keyword rfl).andThen fun _ => ?_
  refine (sequenceExpression_accounts hg).bind fun values => endOfStatement_accounts.andThen fun _ => ?_
  exact accounts_node (by decide) fun _ _ h => by simpa using h

omit hg in
theorem gotoStatement_accounts : gotoStatement.Accounts nothing (nothing ()) Quiet Quiet :=
  .look still_position fun _ => (accounts_keyword rfl).andThen fun _ => accounts_name.andThen fun _ =>
    endOfStatement_accounts.andThen fun _ => accounts_of_still still_node

omit hg in
theorem labelStatement_accounts : labelStatement.Accounts nothing (nothing ()) Quiet Quiet :=
  .look still_position fun _ => accounts_name.andThen fun _ => accounts_symbol.andThen fun _ =>
    accounts_of_still still_node

theorem exitStatement_accounts : (exitStatement g).Accounts ofNode (nothing ()) Quiet Quiet := by
  refine .look still_position fun start => (accounts_keyword rfl).andThen fun _ => ?_
  have hnode (value : List Node) : (endOfStatement >>= fun _ => node "exit_statement" start value).Accounts
      ofNode (ofNodes value) Quiet Quiet :=
    endOfStatement_accounts.andThen fun _ => accounts_node (by decide) (covers_refl _)
  refine .ifAccept (.ifSymbol ?_ ?_) ((hnode []).knowing (covers_nothing _))
  · exact accounts_symbol.andThen fun _ => (hnode []).knowing (covers_nothing _)
  · refine (hg.expression _).bind fun value => ?_
    rw [pure_bind]
    refine accounts_symbol.andThen fun _ => ?_
    exact (hnode [value]).knowing fun _ _ h => by simpa using h

theorem unsetStatement_accounts : (unsetStatement g).Accounts ofNode (nothing ()) Quiet Quiet := by
  refine .look still_position fun start => (accounts_keyword rfl).andThen fun _ => ?_
  refine accounts_symbol.andThen fun _ => (accounts_listOf (hg.expression _)).bind fun targets => ?_
  refine endOfStatement_accounts.andThen fun _ => accounts_node (by decide) fun _ _ h => ?_
  simpa using h

theorem globalDeclaration_accounts :
    (globalDeclaration g).Accounts ofNode (nothing ()) Quiet Quiet := by
  refine .look still_position fun start => (accounts_keyword rfl).andThen fun _ => ?_
  refine (accounts_commaSeparated (anyVariable_accounts hg) fun _ h => h).bind fun targets => ?_
  refine endOfStatement_accounts.andThen fun _ => accounts_node (by decide) fun _ _ h => ?_
  simpa using h

theorem staticVariable_accounts :
    (staticVariable g).Accounts ofNode (nothing ()) Quiet Anywhere := by
  refine .look still_position fun start => accounts_plainVariable.andThen fun name => ?_
  refine .ifAcceptOptional _ (hg.expression _) (fun n => covers_withField n _) (fun _ _ => trivial)
    fun value => accounts_node (by decide) fun _ _ h => ?_
  simp at h ⊢
  tauto

theorem staticDeclaration_accounts :
    (staticDeclaration g).Accounts ofNode (nothing ()) Quiet Quiet := by
  refine .look still_position fun start => (accounts_keyword rfl).andThen fun _ => ?_
  refine (accounts_commaSeparated (staticVariable_accounts hg) fun _ h => h).bind fun targets => ?_
  refine endOfStatement_accounts.andThen fun _ => accounts_node (by decide) fun _ _ h => ?_
  simpa using h

theorem declareDirective_accounts :
    (declareDirective g).Accounts ofNode (nothing ()) Quiet Anywhere := by
  refine .look still_position fun start => (accounts_discard accounts_name).andThen fun _ => ?_
  refine accounts_symbol.andThen fun _ => (hg.expression _).bind fun value => ?_
  exact accounts_node (by decide) fun _ _ h => by simpa using h

theorem declareStatement_accounts (clauses : Clauses) :
    (declareStatement g clauses).Accounts ofNode (nothing ()) Quiet Quiet := by
  refine .look still_position fun start => (accounts_keyword rfl).andThen fun _ => ?_
  refine accounts_symbol.andThen fun _ => (accounts_listOf (declareDirective_accounts hg)).bind ?_
  intro directives
  refine .ifAccept ?_ (.look (still_isSymbol _ _) fun _ => .look (still_peek _) fun _ => ?_)
  · refine (statements_accounts hg).bind fun items => (accounts_keyword rfl).andThen fun _ => ?_
    refine endOfStatement_accounts.andThen fun _ => accounts_node (by decide) fun _ _ h => ?_
    simpa using h
  · refine .ite (fun _ => endOfStatement_accounts.andThen fun _ => ?_) fun _ => ?_
    · exact accounts_node (by decide) fun _ _ h => by simpa using h
    · refine (hg.statement _).bind fun body => accounts_node (by decide) fun _ _ h => ?_
      simpa using h

theorem namespaceDefinition_accounts :
    (namespaceDefinition g).Accounts ofNode (nothing ()) Quiet Quiet := by
  refine .look still_position fun start => (accounts_keyword rfl).andThen fun _ => ?_
  have hafter (name : List Node) : (do
      if ← isSymbol .openBrace then
        let body ← body g
        node "namespace_definition" start (name ++ [body])
      else
        endOfStatement
        node "namespace_definition" start name).Accounts ofNode (nothing ()) Anywhere Quiet := by
    refine .ifSymbol ?_ (endOfStatement_accounts.andThen fun _ => ?_)
    · refine (body_accounts hg).bind fun body => accounts_node (by decide) fun _ _ h => ?_
      simpa using Or.inr h
    · exact accounts_node (by decide) (covers_nothing _)
  refine .look (still_isWord _) fun _ => .ite (fun _ => ?_) fun _ => ?_
  · exact accounts_namespaceName.andThen fun name => hafter _
  · exact (hafter _).before fun _ _ => trivial

omit hg in
theorem useStatement_accounts : useStatement.Accounts ofNode (nothing ()) Quiet Quiet := by
  have hregroup : useStatement = (do
      let start ← position
      (do
        keyword .use_
        skipStatement ((← get).tokens.length + 1))
      node "namespace_use_declaration" start []) := by
    rw [useStatement]
    simp only [bind_assoc]
  rw [hregroup]
  refine accounts_covering everything ?_ (fun _ h => h) fun start _ input result rest hrun => ?_
  · exact (accounts_keyword rfl).andThen fun _ => .look still_get fun _ => skipStatement_accounts _
  · cases hrun
    exact ⟨rfl, fun head word _ hstart hstop => ofNode_of_isPassedOver rfl hstart hstop⟩

theorem expressionStatement_accounts :
    (expressionStatement g).Accounts ofNode (nothing ()) Quiet Quiet := by
  refine .look still_position fun start => (hg.expression _).bind fun value => ?_
  refine endOfStatement_accounts.andThen fun _ => accounts_node (by decide) fun _ _ h => ?_
  simpa using h

omit hg in
theorem still_isFunctionHead (skip : Nat) : (isFunctionHead skip).Still := by
  refine still_bind (still_isKeyword _ _) fun _ => still_ite (still_pure _) ?_
  exact still_bind (still_isSymbol _ _) fun _ => still_ite (still_isWord _) (still_isWord _)

theorem wordStatement_accounts (clauses : Clauses) (keyword : Option Keyword) :
    (wordStatement g clauses keyword).Accounts ofNode (nothing ())
      (fun gap => gap.Quiet ∧ gap.keyword? = keyword) Quiet := by
  have hquiet : ∀ gap : Gap, gap.Quiet ∧ gap.keyword? = keyword → gap.Quiet := fun _ h => h.1
  have hexpression := (expressionStatement_accounts hg).before hquiet
  refine .look still_isClassHead fun _ => .ite (fun _ => .look still_position fun _ => ?_) fun _ => ?_
  · exact ((typeDeclaration_accounts hg (by simp [Unnamed])).knowing (covers_nothing _)).before hquiet
  refine .look (still_isFunctionHead _) fun _ =>
    .ite (fun _ => (functionDefinition_accounts hg).before hquiet) fun _ => ?_
  refine .look (still_isSymbol _ _) fun _ =>
    .ite (fun _ => labelStatement_accounts.ofNothing.before hquiet) fun _ => ?_
  split
  · exact (ifStatement_accounts hg clauses).before hquiet
  · exact (whileStatement_accounts hg clauses).before hquiet
  · exact (doStatement_accounts hg).before hquiet
  · exact (forStatement_accounts hg clauses).before hquiet
  · exact (foreachStatement_accounts hg clauses).before hquiet
  · exact (switchStatement_accounts hg).before hquiet
  · exact (tryStatement_accounts hg).before hquiet
  · exact keywordStatement_accounts hg (by decide) rfl
  · exact keywordStatement_accounts hg (by decide) rfl
  · exact keywordStatement_accounts hg (by decide) rfl
  · exact (echoStatement_accounts hg).before hquiet
  · exact gotoStatement_accounts.ofNothing.before hquiet
  · exact (exitStatement_accounts hg).before hquiet
  · exact (unsetStatement_accounts hg).before hquiet
  · exact (globalDeclaration_accounts hg).before hquiet
  · exact (declareStatement_accounts hg clauses).before hquiet
  · refine .look still_position fun _ => .before ?_ hquiet
    exact (constDeclaration_accounts hg []).knowing (covers_nothing _)
  · exact useStatement_accounts.before hquiet
  · refine .look (still_isSymbol _ _) fun _ => .ite (fun _ => hexpression) fun _ => ?_
    exact (namespaceDefinition_accounts hg).before hquiet
  · refine .look (still_peek _) fun _ => .ite (fun _ => ?_) fun _ => hexpression
    exact (staticDeclaration_accounts hg).before hquiet
  · exact hexpression

theorem attributedStatement_accounts :
    (attributedStatement g).Accounts ofNode (nothing ()) Quiet Quiet := by
  refine .look still_position fun start =>
    .orElse [functionDefinition g, expressionStatement g] ?_ fun input => ?_
  · simpa using ⟨functionDefinition_accounts hg, expressionStatement_accounts hg⟩
  · simp only [without_bind, without_ite]
    refine accounts_attributes.bindWith unnamed_attributes fun attributes hattributes => ?_
    refine .look still_isClassHead fun _ => .ite (fun _ => ?_) fun _ => ?_
    · refine ((typeDeclaration_accounts hg hattributes).knowing fun _ _ h => ?_).without
      simpa using h
    · refine .look (still_isFunctionHead _) fun _ => .ite (fun _ => ?_) fun _ => ?_
      · exact accounts_goBack (by simp)
      · exact accounts_goBack (by simp)

theorem statement_accounts (clauses : Clauses) :
    (statement g clauses).Accounts ofNode (nothing ()) Quiet Quiet := by
  refine .peek fun next => ?_
  split
  · exact compound_accounts hg
  · exact ((accounts_leaf accounts_take_symbol).before fun _ h => h.2).ofNothing
  · exact (attributedStatement_accounts hg).before fun _ h => h.1
  · refine (wordStatement_accounts hg clauses _).before fun gap h => ⟨h.1, ?_⟩
    rw [Gap.keyword?, h.2]
    rfl
  · exact (expressionStatement_accounts hg).before fun _ h => h.1

/-! ## Files -/

theorem program_accounts :
    (program g).Accounts ofNode (nothing ()) Quiet (fun gap => gap.tokens = []) := by
  refine ifLeaf_accounts rfl rfl fun html => ifLeaf_accounts rfl rfl fun opening => ?_
  refine (statements_accounts hg).bind fun items => .atEnd (accounts_node (by decide) ?_) still_node
  intro _ _ h
  simp at h ⊢
  tauto

end Blocks

/-- Readers of any depth account for what they pass. -/
theorem nesting_accounts (depth : Nat) : (nesting depth).Accounts := by
  induction depth with
  | zero => exact ⟨fun _ => accounts_failure, fun _ => accounts_failure, accounts_failure, ensures_failure⟩
  | succ depth ih =>
    exact ⟨expression_accounts ih, statement_accounts ih, memberList_accounts ih,
      memberList_isMemberListKind⟩

/-! ## Tokens in order -/

/-- Tokens in order that begin behind a position. -/
structure InOrderFrom (position : Nat) (tokens : List Token) : Prop where
  inOrder : InOrder tokens
  le_start : ∀ token ∈ tokens, position ≤ token.start

theorem inOrderFrom_nil (position : Nat) : InOrderFrom position [] :=
  ⟨⟨.nil, by simp, by simp⟩, by simp⟩

theorem InOrderFrom.mono {position place : Nat} {tokens : List Token}
    (h : InOrderFrom position tokens) (hplace : place ≤ position) : InOrderFrom place tokens :=
  ⟨h.inOrder, fun token htoken => Nat.le_trans hplace (h.le_start token htoken)⟩

theorem InOrderFrom.cons {lexeme : Lexeme} {position stop : Nat} {tokens : List Token}
    (hkeyed : lexeme.IsKeyed) (hstop : position ≤ stop) (h : InOrderFrom stop tokens) :
    InOrderFrom position (⟨lexeme, position, stop⟩ :: tokens) where
  inOrder :=
    { apart := List.pairwise_cons.mpr ⟨h.le_start, h.inOrder.apart⟩
      start_le_stop := List.forall_mem_cons.mpr ⟨hstop, h.inOrder.start_le_stop⟩
      isKeyed := List.forall_mem_cons.mpr ⟨hkeyed, h.inOrder.isKeyed⟩ }
  le_start := List.forall_mem_cons.mpr
    ⟨Nat.le_refl _, fun token htoken => Nat.le_trans hstop (h.le_start token htoken)⟩

theorem isKeyed_number (text : Text) : (number text).1.IsKeyed := by
  rw [number]
  split
  · trivial
  · simp only
    split <;> trivial

theorem isKeyed_recognize (afterOperand : Bool) (text : Text) :
    ∀ lexeme ∈ (recognize afterOperand text).1, lexeme.IsKeyed := by
  have hnone : ∀ lexeme ∈ (none : Option Lexeme), lexeme.IsKeyed := by simp
  have hsome {found : Lexeme} (h : found.IsKeyed) : ∀ lexeme ∈ some found, lexeme.IsKeyed := by
    simpa using h
  unfold recognize
  split
  · exact hnone
  · exact hnone
  · exact hnone
  · exact hsome trivial
  · exact hnone
  · exact hsome trivial
  · exact hsome trivial
  · exact hsome trivial
  · split
    · exact hnone
    split
    · exact hsome trivial
    split
    · exact hsome trivial
    split
    · exact hsome trivial
    split
    · exact hsome trivial
    split
    · exact hsome rfl
    split
    · exact hsome (isKeyed_number _)
    split
    · split
      · refine hsome ?_
        split <;> trivial
      · exact hsome trivial
      · exact hsome trivial
    · exact hsome trivial
    · exact hsome trivial

theorem inOrderFrom_scan (steps : Nat) :
    (∀ position text, InOrderFrom position (scanHtml steps position text)) ∧
      ∀ position afterOperand text,
        InOrderFrom position (scanCode steps position afterOperand text) := by
  induction steps with
  | zero => exact ⟨fun _ _ => inOrderFrom_nil _, fun _ _ _ => inOrderFrom_nil _⟩
  | succ steps ih =>
    obtain ⟨ihHtml, ihCode⟩ := ih
    refine ⟨fun position text => ?_, fun position afterOperand text => ?_⟩
    · rw [scanHtml]
      have hopening : position ≤ position + Text.byteSize (text.take (htmlLength text)) :=
        Nat.le_add_right _ _
      generalize position + Text.byteSize (text.take (htmlLength text)) = opening at hopening ⊢
      cases openTagLength? (text.drop (htmlLength text)) with
      | none =>
        split
        · exact inOrderFrom_nil _
        · exact .cons trivial hopening (inOrderFrom_nil _)
      | some length =>
        have htag (rest : Text) : InOrderFrom opening (⟨.openTag, opening, opening + length⟩ ::
            scanCode steps (opening + length) false rest) :=
          .cons trivial (Nat.le_add_right _ _) (ihCode _ _ _)
        split
        · exact (htag _).mono hopening
        · exact .cons trivial hopening (htag _)
    · cases text with
      | nil => exact inOrderFrom_nil _
      | cons c text =>
        have hkeyed := isKeyed_recognize afterOperand (c :: text)
        rw [scanCode]
        generalize recognize afterOperand (c :: text) = found at hkeyed ⊢
        obtain ⟨lexeme, length⟩ := found
        have hstop : position ≤ position + Text.byteSize ((c :: text).take length) :=
          Nat.le_add_right _ _
        simp only
        split
        · exact (ihCode _ _ _).mono hstop
        · exact .cons trivial hstop (ihHtml _ _)
        · exact .cons (hkeyed _ rfl) hstop (ihCode _ _ _)

theorem inOrder_scan (text : Text) : InOrder (Token.scan text) := by
  cases text with
  | nil => exact (inOrderFrom_nil 0).inOrder
  | cons c text =>
    rw [Token.scan]
    split
    · exact ((inOrderFrom_scan _).1 _ _).inOrder
    · exact ((inOrderFrom_scan _).1 _ _).inOrder

/-- A node that tells something is explained by a node of its tree. -/
theorem Tells.exists_explains {head word : Token} {n : Node} (h : Tells head word n) :
    ∃ m ∈ n.nodes, Explains head word m := by
  have hbelow {c m n : Node} (hc : c ∈ n.children) (hm : m ∈ c.nodes) : m ∈ n.nodes :=
    mem_nodes_of_mem_descendants (mem_nodesAll.mpr ⟨c, hc, hm⟩)
  induction h with
  | here h => exact ⟨_, mem_nodes_self _, h⟩
  | child _ hc _ ih =>
    obtain ⟨m, hm, h⟩ := ih
    exact ⟨m, hbelow hc hm, h⟩
  | element _ hc hd _ ih =>
    obtain ⟨m, hm, h⟩ := ih
    exact ⟨m, hbelow hc (hbelow hd hm), h⟩

/-- The tree of a text that is read accounts for the tokens of the text. -/
theorem accountsFor_of_parse? {text : Text} {root : Node} (h : parse? text = some root) :
    AccountsFor root (Token.scan text) := by
  rintro head word ⟨u, v, htokens⟩ hhead hfree
  have hscan : Token.scan text = u ++ head :: word :: v := by simpa using htokens.symm
  obtain ⟨⟨found, rest⟩, hrun, rfl⟩ := Option.map_eq_some_iff.mp h
  obtain ⟨-, after, -, hpasses, hend⟩ := program_accounts (nesting_accounts _) none _ found rest hrun
    (inOrder_scan text) (fun _ h => by cases h) (fun _ h => by cases h)
  exact (hpasses.explains hend hscan hhead hfree).exists_explains

end Namespacer.Grammar
