import Mathlib.Data.List.TakeWhile
import Namespacer.Proofs.DeclarationReaders
import Namespacer.StandardTools

/-!
# Statements and whole files follow the grammar

Literal text between statements is plain. With this the clauses of conditionals
and of blocks whose errors are caught are found between it, and every tree that
the readers build follows the grammar.

* `follows_of_parse?`: the tree of a text that is read follows the grammar.
* `follows_standard`: so does every tree that the standard tools give.
-/

namespace Namespacer.Grammar

open Reader
open Concrete

variable {g : Nesting} {start : Nat}

/-! ## Literal text -/

section LiteralText

theorem inert_interpolation : interpolation.Ensures Inert := by
  refine ensures_skip fun start => ensures_skip fun next => ?_
  split
  · refine ensures_bind (P := Inert) (inert_leaf rfl) fun close hclose => ensures_skip fun _ => ?_
    refine ensures_optional (S := Inert) (inert_leaf rfl) fun html hhtml => ensures_skip fun _ => ?_
    refine ensures_optional (S := Inert) (inert_leaf rfl) fun opening hopening => ?_
    refine inert_node rfl ?_
    simp only [List.forall_mem_append, List.forall_mem_singleton]
    exact ⟨⟨hclose, hhtml.forall_mem⟩, hopening.forall_mem⟩
  · exact ensures_failure

theorem inert_interpolationsBefore (keywords : List Keyword) :
    (interpolationsBefore keywords).Ensures fun found => ∀ c ∈ found, Inert c := by
  refine ensures_skip fun _ => ensures_skip fun behind => ?_
  split
  · refine ensures_ite (fun _ => ensures_collect (ensures_skip fun _ => ?_)) fun _ => ?_
    · refine ensures_ite (fun _ => ?_) fun _ => ensures_pure (by simp)
      exact ensures_bind inert_interpolation fun n hn => ensures_pure (by simpa using hn)
    · exact ensures_pure (by simp)
  · exact ensures_pure (by simp)

end LiteralText

/-- What is split from the end of a block is literal text. -/
theorem splitTrailing_follows {items : List Node} (h : ∀ c ∈ items, FollowsGrammar c) :
    (∀ c ∈ (splitTrailing items).1, FollowsGrammar c) ∧
      ∀ c ∈ (splitTrailing items).2, Inert c := by
  constructor
  · intro c hc
    exact h c (List.mem_of_mem_take hc)
  · intro c hc
    have htaken := List.mem_reverse.mp hc
    have hmem : c ∈ items := List.mem_reverse.mp ((List.takeWhile_sublist _).subset htaken)
    have hkind : c.kind = "text_interpolation" := by simpa using List.mem_takeWhile_imp htaken
    exact ⟨h c hmem, (h c hmem).fits.interpolation hkind⟩

/-! ## Blocks -/

section Blocks

variable (hg : g.Follows)
include hg

theorem statements_follows : (statements g).Ensures fun items => ∀ c ∈ items, FollowsGrammar c := by
  have hstatement : (g.statement .own >>= fun n => pure (some n)).Ensures
      fun found => ∀ c ∈ found, FollowsGrammar c :=
    ensures_bind (hg.statement _) fun n hn => ensures_pure (by simpa using hn)
  refine ensures_collect (ensures_skip fun next => ?_)
  split
  · exact ensures_pure (by simp)
  · exact ensures_pure (by simp)
  · exact ensures_bind inert_interpolation fun n hn => ensures_pure (by simpa using hn.1)
  · exact ensures_ite (fun _ => ensures_pure (by simp)) fun _ => hstatement
  · exact hstatement

theorem compound_follows : (compound g).Ensures FollowsGrammar :=
  ensures_skip fun _ => ensures_skip fun _ => ensures_bind (statements_follows hg) fun _ hitems =>
    ensures_skip fun _ => follows_node rfl (by decide) hitems

theorem colonBlock_follows : (colonBlock g).Ensures fun block =>
    IsBody block.1 ∧ ∀ c ∈ block.2, Inert c := by
  refine ensures_skip fun start => ensures_skip fun _ => ?_
  refine ensures_bind (statements_follows hg) fun items hitems => ?_
  obtain ⟨hkept, htrailing⟩ := splitTrailing_follows hitems
  exact ensures_pure ⟨⟨follows_plain rfl (by simp) rfl hkept, rfl⟩, htrailing⟩

theorem loopBody_follows (clauses : Clauses) (close : Keyword) :
    (loopBody g clauses close).Ensures fun parts => ∀ c ∈ parts, FollowsGrammar c := by
  refine ensures_skip fun _ => ensures_ite (fun _ => ?_) fun _ => ?_
  · refine ensures_bind (colonBlock_follows hg) fun block hblock => ?_
    refine ensures_skip fun _ => ensures_skip fun _ => ensures_pure ?_
    exact List.forall_mem_cons.mpr ⟨hblock.1.1, fun c hc => (hblock.2 c hc).1⟩
  · refine ensures_bind (hg.statement _) fun n hn => ensures_pure ?_
    simpa using hn.withField "body"

/-! ## Conditionals -/

/-- The condition of a statement, as its child. -/
def IsCondition (n : Node) : Prop := FollowsGrammar n ∧ n.field = some "condition"

theorem condition_follows : (condition g).Ensures IsCondition :=
  ensures_bind (parenthesized_designator hg) fun _ hn =>
    ensures_pure ⟨hn.follows.withField "condition", by simp⟩

/-- A clause of a conditional, or literal text between such clauses. -/
def IsAlternative (n : Node) : Prop :=
  Inert n ∨ FollowsGrammar n ∧ n.field = some "alternative"

omit hg in
theorem follows_elseIf {n condition body : Node} (hkind : n.kind = "else_if_clause")
    (hnamed : n.named = true) (hchildren : n.children = [condition, body])
    (hcondition : IsCondition condition) (hbody : IsBody body) : FollowsGrammar n :=
  follows_ifThen (by rw [hkind]; rfl) hnamed hchildren hcondition.1 hcondition.2 hbody.1 hbody.2 (by simp)

omit hg in
theorem isBody_withField {n : Node} (h : FollowsGrammar n) : IsBody (n.withField "body") :=
  ⟨h.withField "body", by simp⟩

theorem plainElseIf_follows (clauses : Clauses) : (plainElseIf g clauses).Ensures
    fun found => ∀ clause ∈ found, ∀ c ∈ clause, IsAlternative c := by
  refine ensures_skip fun input => ?_
  refine ensures_bind (inert_interpolationsBefore _) fun before hbefore => ?_
  refine ensures_skip fun start => ensures_skip fun _ => ?_
  refine ensures_ite (fun _ => ensures_pure (by simp)) fun _ => ?_
  refine ensures_bind (condition_follows hg) fun condition hcondition => ensures_skip fun _ => ?_
  refine ensures_ite (fun _ => ensures_skip fun _ => ensures_pure (by simp)) fun _ => ?_
  refine ensures_bind (hg.statement _) fun body hbody => ?_
  refine ensures_bind (P := FollowsGrammar)
    (ensures_node fun _ => follows_elseIf rfl rfl rfl hcondition (isBody_withField hbody)) ?_
  intro clause hclause
  refine ensures_pure ?_
  simp only [Option.mem_def, Option.some.injEq, forall_eq', List.forall_mem_append,
    List.forall_mem_singleton]
  exact ⟨fun c hc => Or.inl (hbefore c hc), Or.inr ⟨hclause.withField "alternative", by simp⟩⟩

theorem plainElse_follows (clauses : Clauses) :
    (plainElse g clauses).Ensures fun found => ∀ c ∈ found, IsAlternative c := by
  refine ensures_skip fun input => ?_
  refine ensures_bind (inert_interpolationsBefore _) fun before hbefore => ?_
  refine ensures_skip fun start => ensures_skip fun _ => ensures_skip fun _ => ?_
  refine ensures_ite (fun _ => ensures_skip fun _ => ?_) fun _ => ensures_skip fun _ => ?_
  · refine ensures_bind (hg.statement _) fun body hbody => ?_
    refine ensures_bind (P := FollowsGrammar) (ensures_node fun _ => ?_) fun clause hclause => ?_
    · exact follows_elseBranch rfl rfl rfl (hbody.withField "body") (by simp)
    · refine ensures_pure ?_
      simp only [List.forall_mem_append, List.forall_mem_singleton]
      exact ⟨fun c hc => Or.inl (hbefore c hc), Or.inr ⟨hclause.withField "alternative", by simp⟩⟩
  · exact ensures_pure (by simp)

theorem colonClause_follows : (colonClause g).Ensures
    fun found => ∀ clause ∈ found, ∀ c ∈ clause, IsAlternative c := by
  refine ensures_skip fun start => ensures_skip fun _ => ensures_ite (fun _ => ?_) fun _ => ?_
  · refine ensures_bind (condition_follows hg) fun condition hcondition => ?_
    refine ensures_bind (colonBlock_follows hg) fun block hblock => ensures_pure ?_
    simp only [Option.mem_def, Option.some.injEq, forall_eq', List.forall_mem_cons]
    exact ⟨Or.inr ⟨follows_elseIf rfl rfl rfl hcondition hblock.1, rfl⟩,
      fun c hc => Or.inl (hblock.2 c hc)⟩
  · refine ensures_skip fun _ => ensures_ite (fun _ => ?_) fun _ => ensures_pure (by simp)
    refine ensures_bind (colonBlock_follows hg) fun block hblock => ensures_pure ?_
    simp only [Option.mem_def, Option.some.injEq, forall_eq', List.forall_mem_cons]
    exact ⟨Or.inr ⟨follows_elseBranch rfl rfl rfl hblock.1.1 hblock.1.2, rfl⟩,
      fun c hc => Or.inl (hblock.2 c hc)⟩

omit hg in
theorem forall_mem_flatten {S : Node → Prop} {groups : List (List Node)}
    (h : ∀ group ∈ groups, ∀ c ∈ group, S c) : ∀ c ∈ groups.flatten, S c := by
  intro c hc
  obtain ⟨group, hgroup, hc⟩ := List.mem_flatten.mp hc
  exact h group hgroup c hc

omit hg in
theorem follows_ifNode {condition body : Node} {others : List Node}
    (hcondition : IsCondition condition) (hbody : IsBody body)
    (hothers : ∀ c ∈ others, IsAlternative c) :
    (node "if_statement" start (condition :: body :: others)).Ensures FollowsGrammar :=
  ensures_node fun _ =>
    follows_ifThen rfl rfl rfl hcondition.1 hcondition.2 hbody.1 hbody.2 hothers

theorem plainIf_follows (clauses inside : Clauses) {condition : Node}
    (hcondition : IsCondition condition) :
    (plainIf g clauses inside start condition).Ensures FollowsGrammar := by
  refine ensures_bind (hg.statement _) fun body hbody => ?_
  refine ensures_ite (fun _ => ?_) fun _ => ?_
  · exact follows_ifNode hcondition (isBody_withField hbody) (by simp)
  · refine ensures_bind (ensures_collect (plainElseIf_follows hg inside)) fun conditions hconditions => ?_
    refine ensures_bind (plainElse_follows hg clauses) fun last hlast => ?_
    have hothers : ∀ c ∈ conditions.flatten ++ last, IsAlternative c :=
      List.forall_mem_append.mpr ⟨forall_mem_flatten hconditions, hlast⟩
    exact follows_ifNode hcondition (isBody_withField hbody) hothers

theorem ifStatement_follows (clauses : Clauses) : (ifStatement g clauses).Ensures FollowsGrammar := by
  refine ensures_skip fun start => ensures_skip fun _ => ?_
  refine ensures_bind (condition_follows hg) fun condition hcondition => ensures_skip fun _ => ?_
  refine ensures_ite (fun _ => ?_) fun _ => ensures_ite (fun _ => ?_) fun _ => ?_
  · refine ensures_bind (colonBlock_follows hg) fun block hblock => ?_
    refine ensures_bind (ensures_collect (colonClause_follows hg)) fun alternatives halternatives => ?_
    refine ensures_skip fun _ => ensures_skip fun _ => ?_
    exact follows_ifNode hcondition hblock.1 (List.forall_mem_append.mpr
      ⟨fun c hc => Or.inl (hblock.2 c hc), forall_mem_flatten halternatives⟩)
  · refine ensures_skip fun input => ?_
    refine ensures_bind (plainIf_follows hg .own .outer hcondition) fun whole hwhole => ?_
    refine ensures_skip fun _ => ensures_skip fun _ => ensures_ite (fun _ => ?_) fun _ => ?_
    · exact ensures_skip fun _ => plainIf_follows hg .own .inner hcondition
    · exact ensures_pure hwhole
  · exact plainIf_follows hg clauses clauses hcondition

/-! ## Loops -/

theorem whileStatement_follows (clauses : Clauses) :
    (whileStatement g clauses).Ensures FollowsGrammar := by
  refine ensures_skip fun start => ensures_skip fun _ => ?_
  refine ensures_bind (condition_follows hg) fun condition hcondition => ?_
  refine ensures_bind (loopBody_follows hg clauses _) fun body hbody => ?_
  exact follows_node rfl (by decide) (List.forall_mem_cons.mpr ⟨hcondition.1, hbody⟩)

theorem doStatement_follows : (doStatement g).Ensures FollowsGrammar := by
  refine ensures_skip fun start => ensures_skip fun _ => ?_
  refine ensures_bind (hg.statement _) fun body hbody => ?_
  refine ensures_bind (inert_interpolationsBefore _) fun between hbetween => ?_
  refine ensures_skip fun _ => ensures_bind (condition_follows hg) fun condition hcondition => ?_
  refine ensures_skip fun _ => follows_node rfl (by decide) ?_
  simp only [List.forall_mem_append, List.forall_mem_singleton]
  exact ⟨⟨hbody.withField "body", fun c hc => (hbetween c hc).1⟩, hcondition.1⟩

theorem loopPart_follows (field : String) (close : Symbol) :
    (loopPart g field close).Ensures fun parts => ∀ c ∈ parts, FollowsGrammar c := by
  refine ensures_skip fun _ => ensures_ite (fun _ => ensures_pure (by simp)) fun _ => ?_
  refine ensures_bind (sequenceExpression_follows hg) fun parts hparts => ensures_skip fun _ => ?_
  refine ensures_pure ?_
  intro c hc
  obtain ⟨part, hpart, rfl⟩ := List.mem_map.mp hc
  exact (hparts part hpart).withField field

theorem forStatement_follows (clauses : Clauses) : (forStatement g clauses).Ensures FollowsGrammar := by
  refine ensures_skip fun start => ensures_skip fun _ => ensures_skip fun _ => ?_
  refine ensures_bind (loopPart_follows hg _ _) fun first hfirst => ?_
  refine ensures_bind (loopPart_follows hg _ _) fun condition hcondition => ?_
  refine ensures_bind (loopPart_follows hg _ _) fun update hupdate => ensures_skip fun _ => ?_
  have hnode {body : List Node} (hbody : ∀ c ∈ body, FollowsGrammar c) :
      (node "for_statement" start (first ++ condition ++ update ++ body)).Ensures FollowsGrammar := by
    refine follows_node rfl (by decide) ?_
    simp only [List.forall_mem_append]
    exact ⟨⟨⟨hfirst, hcondition⟩, hupdate⟩, hbody⟩
  refine ensures_ite (fun _ => ?_) fun _ => ?_
  · refine ensures_bind (statements_follows hg) fun items hitems => ?_
    refine ensures_skip fun _ => ensures_skip fun _ => hnode ?_
    intro c hc
    obtain ⟨item, hitem, rfl⟩ := List.mem_map.mp hc
    split
    · exact hitems item hitem
    · exact (hitems item hitem).withField "body"
  · exact ensures_bind (hg.statement _) fun n hn => hnode (by simpa using hn.withField "body")

theorem loopTarget_follows : (loopTarget g).Ensures FollowsGrammar :=
  ensures_skip fun _ => ensures_ite (fun _ => byReference_follows (hg.expression _)) fun _ =>
    ensures_bind (hg.expression _) fun _ hn => ensures_pure (asTarget_follows hn)

theorem foreachStatement_follows (clauses : Clauses) :
    (foreachStatement g clauses).Ensures FollowsGrammar := by
  refine ensures_skip fun start => ensures_skip fun _ => ensures_skip fun _ => ?_
  refine ensures_bind (hg.expression _) fun collection hcollection => ensures_skip fun _ => ?_
  refine ensures_skip fun opening => ensures_bind (loopTarget_follows hg) fun first hfirst => ?_
  refine ensures_skip fun _ => ?_
  extract_lets afterTarget
  have hafter : ∀ target, FollowsGrammar target → (afterTarget target).Ensures FollowsGrammar := by
    intro target htarget
    refine ensures_skip fun _ => ensures_bind (loopBody_follows hg clauses _) fun body hbody => ?_
    refine follows_node rfl (by decide) ?_
    simp only [List.forall_mem_append, List.forall_mem_cons]
    exact ⟨⟨hcollection, htarget, by simp⟩, hbody⟩
  clear_value afterTarget
  refine ensures_ite (fun _ => ?_) fun _ => hafter first hfirst
  refine ensures_bind (loopTarget_follows hg) fun value hvalue => ?_
  refine ensures_bind (follows_node rfl (by decide) ?_) hafter
  simpa using ⟨hfirst, hvalue⟩

/-! ## Cases and caught errors -/

theorem switchCase_follows : (switchCase g).Ensures
    fun found => ∀ clause ∈ found, ∀ c ∈ clause, FollowsGrammar c := by
  refine ensures_skip fun start => ensures_skip fun _ => ensures_ite (fun _ => ?_) fun _ => ?_
  · exact ensures_bind inert_interpolation fun n hn => ensures_pure (by simpa using hn.1)
  · refine ensures_skip fun _ => ensures_skip fun _ => ?_
    extract_lets afterHead
    have hnone : (afterHead none).Ensures fun found => ∀ clause ∈ found, ∀ c ∈ clause, FollowsGrammar c :=
      ensures_pure (by simp)
    have hafter : ∀ kind value, Shape.ofKind? kind = none → kind ≠ "text_interpolation" →
        (∀ c ∈ value, FollowsGrammar c) → (afterHead (some (kind, value))).Ensures
          fun found => ∀ clause ∈ found, ∀ c ∈ clause, FollowsGrammar c := by
      intro kind value hkind htext hvalue
      have hclause : (statements g >>= fun items => node kind start (value ++ (splitTrailing items).1)
          >>= fun clause => pure (some (clause :: (splitTrailing items).2))).Ensures
          fun found => ∀ clause ∈ found, ∀ c ∈ clause, FollowsGrammar c := by
        refine ensures_bind (statements_follows hg) fun items hitems => ?_
        obtain ⟨hkept, htrailing⟩ := splitTrailing_follows hitems
        refine ensures_bind (follows_node hkind htext (List.forall_mem_append.mpr ⟨hvalue, hkept⟩)) ?_
        intro clause hclause
        refine ensures_pure ?_
        simp only [Option.mem_def, Option.some.injEq, forall_eq', List.forall_mem_cons]
        exact ⟨hclause, fun c hc => (htrailing c hc).1⟩
      refine ensures_skip fun _ => ensures_ite (fun _ => hclause) fun _ => ?_
      exact ensures_skip fun _ => hclause
    clear_value afterHead
    refine ensures_ite (fun _ => ?_) fun _ => ensures_ite (fun _ => ?_) fun _ => hnone
    · refine ensures_bind (hg.expression _) fun value hvalue => ?_
      exact hafter _ _ rfl (by decide) (by simpa using hvalue.withField "value")
    · exact hafter _ _ rfl (by decide) (by simp)

theorem switchStatement_follows : (switchStatement g).Ensures FollowsGrammar := by
  refine ensures_skip fun start => ensures_skip fun _ => ?_
  refine ensures_bind (condition_follows hg) fun condition hcondition => ?_
  refine ensures_skip fun opening => ensures_skip fun hasColon => ?_
  extract_lets afterOpening
  have hafter : (afterOpening ()).Ensures FollowsGrammar := by
    refine ensures_bind (ensures_collect (switchCase_follows hg)) fun groups hgroups => ?_
    have hnode : (node "switch_block" opening groups.flatten >>= fun block =>
        node "switch_statement" start [condition, block.withField "body"]).Ensures FollowsGrammar := by
      refine ensures_bind (follows_node rfl (by decide) (forall_mem_flatten hgroups)) fun block hblock => ?_
      refine follows_node rfl (by decide) ?_
      simpa using ⟨hcondition.1, hblock.withField "body"⟩
    refine ensures_ite (fun _ => ?_) fun _ => ensures_skip fun _ => hnode
    exact ensures_skip fun _ => ensures_skip fun _ => hnode
  clear_value afterOpening
  exact ensures_ite (fun _ => hafter) fun _ => ensures_skip fun _ => hafter

theorem catchClause_follows : (catchClause g).Ensures
    fun found => ∀ clause ∈ found, ∀ c ∈ clause, IsClause c := by
  refine ensures_bind (inert_interpolationsBefore _) fun before hbefore => ?_
  have hreturn {clause : Node} (hclause : IsClause clause) :
      (pure (some (before ++ [clause])) : Reader _).Ensures
        fun found => ∀ clause ∈ found, ∀ c ∈ clause, IsClause c := by
    refine ensures_pure ?_
    simp only [Option.mem_def, Option.some.injEq, forall_eq', List.forall_mem_append,
      List.forall_mem_singleton]
    exact ⟨fun c hc => Or.inl (hbefore c hc), hclause⟩
  refine ensures_skip fun start => ensures_skip fun _ => ensures_ite (fun _ => ?_) fun _ => ?_
  · refine ensures_skip fun _ => ensures_skip fun opening => ?_
    refine ensures_bind (inert_namedType false) fun first hfirst => ?_
    refine ensures_bind (P := fun rest => ∀ c ∈ rest, Inert c) (ensures_collect ?_) ?_
    · refine ensures_skip fun _ => ensures_ite (fun _ => ?_) fun _ => ensures_pure (by simp)
      exact ensures_bind (inert_namedType false) fun n hn => ensures_pure (by simpa using hn)
    · intro rest hrest
      refine ensures_bind (inert_node rfl (List.forall_mem_cons.mpr ⟨hfirst, hrest⟩)) fun types htypes => ?_
      refine ensures_skip fun _ => ?_
      refine ensures_optional (S := Aside)
        (inert_plainVariable.mono fun n hn => Aside.of_inert hn (by decide)) fun name hname => ?_
      refine ensures_skip fun _ => ensures_bind (body_follows hg) fun body hbody => ?_
      refine ensures_bind (P := IsClause) (ensures_node fun stop => ?_) fun clause h => hreturn h
      refine Or.inr ⟨follows_catchClause rfl rfl rfl ?_ hbody.1 hbody.2, Or.inl rfl⟩
      rw [List.forall_mem_append, List.forall_mem_singleton]
      exact ⟨Aside.of_inert htypes (by decide), hname.forall_mem⟩
  · refine ensures_skip fun _ => ensures_ite (fun _ => ?_) fun _ => ensures_pure (by simp)
    refine ensures_bind (body_follows hg) fun body hbody => ?_
    refine ensures_bind (P := IsClause) (ensures_node fun stop => ?_) fun clause h => hreturn h
    exact Or.inr ⟨follows_plain rfl (by simp) rfl (by simpa using hbody.1),
      Or.inr ⟨rfl, body, rfl, hbody.2⟩⟩

theorem tryStatement_follows : (tryStatement g).Ensures FollowsGrammar := by
  refine ensures_skip fun start => ensures_skip fun _ => ?_
  refine ensures_bind (body_follows hg) fun body hbody => ?_
  refine ensures_bind (ensures_collect (catchClause_follows hg)) fun clauses hclauses => ?_
  exact ensures_node fun stop =>
    follows_tryCatch rfl rfl rfl hbody.1 hbody.2 (forall_mem_flatten hclauses)

/-! ## Simple statements -/

theorem keywordStatement_follows {kind : String} (hkind : Shape.ofKind? kind = some .returning ∨
    Shape.ofKind? kind = none ∧ kind ≠ "text_interpolation") :
    (keywordStatement g kind).Ensures FollowsGrammar := by
  refine ensures_skip fun start => ensures_skip fun _ => ensures_skip fun _ => ?_
  refine ensures_optional_else (S := FollowsGrammar) (hg.expression _) fun value hvalue => ?_
  refine ensures_skip fun _ => ?_
  rcases hkind with hreturn | ⟨hplain, htext⟩
  · refine ensures_node fun stop => follows_single hreturn (by simp) rfl ?_ hvalue.forall_mem
    rcases hvalue with rfl | ⟨n, rfl, _⟩ <;> simp
  · exact follows_node hplain htext hvalue.forall_mem

theorem echoStatement_follows : (echoStatement g).Ensures FollowsGrammar :=
  ensures_skip fun _ => ensures_skip fun _ => ensures_bind (sequenceExpression_follows hg) fun _ hvalues =>
    ensures_skip fun _ => ensures_node fun _ => follows_open rfl (Or.inl rfl) rfl hvalues

omit hg in
theorem gotoStatement_follows : gotoStatement.Ensures FollowsGrammar :=
  ensures_skip fun _ => ensures_skip fun _ => ensures_bind inert_name fun _ hlabel =>
    ensures_skip fun _ => follows_node rfl (by decide) (by simpa using hlabel.1)

omit hg in
theorem labelStatement_follows : labelStatement.Ensures FollowsGrammar :=
  ensures_skip fun _ => ensures_bind inert_name fun _ hlabel =>
    ensures_skip fun _ => follows_node rfl (by decide) (by simpa using hlabel.1)

theorem exitStatement_follows : (exitStatement g).Ensures FollowsGrammar := by
  refine ensures_skip fun start => ensures_skip fun _ => ensures_skip fun _ => ?_
  have hnode {value : List Node} (hvalue : ∀ c ∈ value, FollowsGrammar c) :
      (endOfStatement >>= fun _ => node "exit_statement" start value).Ensures FollowsGrammar :=
    ensures_skip fun _ => follows_node rfl (by decide) hvalue
  refine ensures_ite (fun _ => ensures_skip fun _ => ?_) fun _ => hnode (by simp)
  refine ensures_optional_else (S := FollowsGrammar) (hg.expression _) fun value hvalue => ?_
  exact ensures_skip fun _ => hnode hvalue.forall_mem

theorem unsetStatement_follows : (unsetStatement g).Ensures FollowsGrammar := by
  refine ensures_skip fun start => ensures_skip fun _ => ensures_skip fun _ => ?_
  refine ensures_bind (P := fun items => ∀ c ∈ items, FollowsGrammar c) (ensures_listUntil ?_) ?_
  · exact ensures_bind (hg.expression _) fun item hitem => ensures_pure (by simpa using hitem)
  · exact fun targets htargets => ensures_skip fun _ => follows_node rfl (by decide) htargets

theorem globalDeclaration_follows : (globalDeclaration g).Ensures FollowsGrammar :=
  ensures_skip fun _ => ensures_skip fun _ =>
    ensures_bind (ensures_commaSeparated (anyVariable_follows hg)) fun _ htargets =>
      ensures_skip fun _ => follows_node rfl (by decide) htargets

theorem staticVariable_follows : (staticVariable g).Ensures FollowsGrammar := by
  refine ensures_skip fun start => ensures_bind inert_plainVariable fun name hname => ?_
  refine ensures_skip fun _ => ?_
  refine ensures_optional (S := FollowsGrammar)
    ((hg.expression _).mono fun n hn => hn.withField "value") fun value hvalue => ?_
  refine follows_node rfl (by decide) ?_
  exact List.forall_mem_cons.mpr ⟨hname.1.withField "name", hvalue.forall_mem⟩

theorem staticDeclaration_follows : (staticDeclaration g).Ensures FollowsGrammar :=
  ensures_skip fun _ => ensures_skip fun _ =>
    ensures_bind (ensures_commaSeparated (staticVariable_follows hg)) fun _ htargets =>
      ensures_skip fun _ => follows_node rfl (by decide) htargets

theorem declareDirective_follows : (declareDirective g).Ensures FollowsGrammar :=
  ensures_skip fun _ => ensures_skip fun _ => ensures_skip fun _ =>
    ensures_bind (hg.expression _) fun _ hvalue => follows_node rfl (by decide) (by simpa using hvalue)

theorem declareStatement_follows (clauses : Clauses) :
    (declareStatement g clauses).Ensures FollowsGrammar := by
  refine ensures_skip fun start => ensures_skip fun _ => ensures_skip fun _ => ?_
  refine ensures_bind (P := fun items => ∀ c ∈ items, FollowsGrammar c) (ensures_listUntil ?_) ?_
  · exact ensures_bind (declareDirective_follows hg) fun n hn => ensures_pure (by simpa using hn)
  · intro directives hdirectives
    refine ensures_skip fun _ => ensures_ite (fun _ => ?_) fun _ => ?_
    · refine ensures_bind (statements_follows hg) fun items hitems => ?_
      refine ensures_skip fun _ => ensures_skip fun _ => ?_
      exact follows_node rfl (by decide) (List.forall_mem_append.mpr ⟨hdirectives, hitems⟩)
    · refine ensures_skip fun _ => ensures_skip fun _ => ensures_ite (fun _ => ?_) fun _ => ?_
      · exact ensures_skip fun _ => follows_node rfl (by decide) hdirectives
      · refine ensures_bind (hg.statement _) fun body hbody => follows_node rfl (by decide) ?_
        rw [List.forall_mem_append, List.forall_mem_singleton]
        exact ⟨hdirectives, hbody⟩

theorem namespaceDefinition_follows : (namespaceDefinition g).Ensures FollowsGrammar := by
  refine ensures_skip fun start => ensures_skip fun _ => ensures_skip fun _ => ?_
  refine ensures_optional (S := FollowsGrammar)
    (inert_namespaceName.mono fun n hn => hn.1.withField "name") fun name hname => ?_
  refine ensures_skip fun _ => ensures_ite (fun _ => ?_) fun _ => ?_
  · refine ensures_bind (body_follows hg) fun body hbody => follows_node rfl (by decide) ?_
    rw [List.forall_mem_append, List.forall_mem_singleton]
    exact ⟨hname.forall_mem, hbody.1⟩
  · exact ensures_skip fun _ => follows_node rfl (by decide) hname.forall_mem

omit hg in
theorem useStatement_follows : useStatement.Ensures FollowsGrammar :=
  ensures_skip fun _ => ensures_skip fun _ => ensures_skip fun _ => ensures_skip fun _ =>
    follows_node rfl (by decide) (by simp)

theorem expressionStatement_follows : (expressionStatement g).Ensures FollowsGrammar := by
  refine ensures_skip fun start => ensures_bind (hg.expression _) fun value hvalue => ?_
  refine ensures_skip fun _ => ensures_node fun stop => ?_
  exact follows_single rfl (by simp) rfl (by simp) (by simpa using hvalue)

theorem wordStatement_follows (clauses : Clauses) (keyword : Option Keyword) :
    (wordStatement g clauses keyword).Ensures FollowsGrammar := by
  refine ensures_skip fun _ => ensures_ite (fun _ => ?_) fun _ => ?_
  · exact ensures_skip fun _ => typeDeclaration_follows hg (by simp)
  refine ensures_skip fun _ => ensures_ite (fun _ => functionDefinition_follows hg) fun _ => ?_
  refine ensures_skip fun _ => ensures_ite (fun _ => labelStatement_follows) fun _ => ?_
  have hexpression := expressionStatement_follows hg
  split
  · exact ifStatement_follows hg clauses
  · exact whileStatement_follows hg clauses
  · exact doStatement_follows hg
  · exact forStatement_follows hg clauses
  · exact foreachStatement_follows hg clauses
  · exact switchStatement_follows hg
  · exact tryStatement_follows hg
  · exact keywordStatement_follows hg (by decide)
  · exact keywordStatement_follows hg (by decide)
  · exact keywordStatement_follows hg (by decide)
  · exact echoStatement_follows hg
  · exact gotoStatement_follows
  · exact exitStatement_follows hg
  · exact unsetStatement_follows hg
  · exact globalDeclaration_follows hg
  · exact declareStatement_follows hg clauses
  · exact ensures_skip fun _ => constDeclaration_follows hg (by simp)
  · exact useStatement_follows
  · exact ensures_skip fun _ =>
      ensures_ite (fun _ => hexpression) fun _ => namespaceDefinition_follows hg
  · exact ensures_skip fun _ =>
      ensures_ite (fun _ => staticDeclaration_follows hg) fun _ => hexpression
  · exact hexpression

theorem attributedStatement_follows : (attributedStatement g).Ensures FollowsGrammar := by
  refine ensures_skip fun start => ensures_skip fun _ => ?_
  refine ensures_bind leading_attributes fun attributes hattributes => ensures_skip fun _ => ?_
  refine ensures_ite (fun _ => typeDeclaration_follows hg hattributes) fun _ => ensures_skip fun _ => ?_
  refine ensures_ite (fun _ => ?_) fun _ => ?_
  · exact ensures_skip fun _ => functionDefinition_follows hg
  · exact ensures_skip fun _ => expressionStatement_follows hg

theorem statement_follows (clauses : Clauses) : (statement g clauses).Ensures FollowsGrammar := by
  refine ensures_skip fun next => ?_
  split
  · exact compound_follows hg
  · exact ensures_leaf fun _ _ => follows_of_childless rfl
  · exact attributedStatement_follows hg
  · exact wordStatement_follows hg clauses _
  · exact expressionStatement_follows hg

/-! ## Files -/

theorem program_follows : (program g).Ensures FollowsGrammar := by
  refine ensures_skip fun _ => ?_
  refine ensures_optional (S := FollowsGrammar) (ensures_leaf fun _ _ => follows_of_childless rfl)
    fun html hhtml => ensures_skip fun _ => ?_
  refine ensures_optional (S := FollowsGrammar) (ensures_leaf fun _ _ => follows_of_childless rfl)
    fun opening hopening => ?_
  refine ensures_bind (statements_follows hg) fun items hitems => ensures_skip fun _ => ?_
  refine ensures_ite (fun _ => follows_node rfl (by decide) ?_) fun _ => ensures_failure
  simp only [List.forall_mem_append]
  exact ⟨⟨hhtml.forall_mem, hopening.forall_mem⟩, hitems⟩

end Blocks

/-- Readers of any depth build nodes that follow the grammar. -/
theorem nesting_follows (depth : Nat) : (nesting depth).Follows := by
  induction depth with
  | zero => exact ⟨fun _ => ensures_failure, fun _ => ensures_failure, ensures_failure⟩
  | succ depth ih => exact ⟨expression_follows ih, statement_follows ih, memberList_follows ih⟩

/-- The tree of a text that is read follows the grammar. -/
theorem follows_of_parse? {text : Text} {root : Node} (h : parse? text = some root) :
    FollowsGrammar root := by
  obtain ⟨⟨found, rest⟩, hrun, rfl⟩ := Option.map_eq_some_iff.mp h
  exact program_follows (nesting_follows _) _ found rest hrun

/-- Every tree that the standard tools give follows the grammar. -/
theorem follows_standard (text : Text) : FollowsGrammar (Tools.standard.parse text) := by
  cases hparse : parse? text with
  | some root => exact Tools.parse_standard hparse ▸ follows_of_parse? hparse
  | none => simpa [Tools.standard, hparse] using follows_of_childless rfl

end Namespacer.Grammar
