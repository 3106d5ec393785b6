import Namespacer.Proofs.ReaderAccounts

/-!
# Names, types and attributes account for what they pass

The readers of names and types pass no suspect pair, but a name may end in a head, so that
nothing is promised of the gap behind them. Attributes pass whatever stands in their brackets, and
the node of the attributes covers it.
-/

namespace Namespacer.Grammar

open Reader
open Account Gap

variable {pre : Gap → Prop} {kind : String} {start : Nat}

/-! ## Names and variables -/

theorem accounts_nameSegments : nameSegments.Accounts nothing (nothing ()) Anywhere Anywhere := by
  refine accounts_collect_nothing (.look (still_isSymbol _ _) fun _ => .look (still_isWord _) fun _ => ?_)
  refine .ite (fun _ => ?_) fun _ => accounts_return
  exact accounts_symbol.andThen fun _ => accounts_name.andThen fun _ => accounts_return

theorem still_qualify (segments : List Node) : (qualify kind start segments).Still := by
  unfold qualify
  split
  · split
    · split
      · exact still_node
      · exact still_node
    · exact still_failure
  · exact still_failure

theorem accounts_qualifiedName : qualifiedName.Accounts nothing (nothing ()) Quiet Anywhere := by
  have hqualify (kind : String) (start : Nat) : (nameSegments >>= qualify kind start).Accounts
      nothing (nothing ()) Anywhere Anywhere :=
    accounts_nameSegments.andThen fun segments => accounts_of_still (still_qualify segments)
  refine .look still_position fun start => .look (still_isSymbol _ _) fun _ => ?_
  refine .ite (fun _ => (hqualify _ _).before fun _ _ => trivial) fun _ => ?_
  refine .look (still_isKeyword _ _) fun _ => .look (still_isSymbol _ _) fun _ => ?_
  refine .ite (fun _ => ?_) fun _ => ?_
  · exact (accounts_keyword rfl).andThen fun _ => (hqualify _ _).before fun _ _ => trivial
  · refine accounts_name.andThen fun first => accounts_nameSegments.andThen fun rest => ?_
    split
    · exact accounts_return
    · exact accounts_of_still (still_qualify _)

theorem accounts_namespaceName : namespaceName.Accounts nothing (nothing ()) Quiet Anywhere :=
  .look still_position fun _ => accounts_name.andThen fun _ =>
    accounts_nameSegments.andThen fun _ => accounts_of_still still_node

theorem accounts_plainVariable : plainVariable.Accounts nothing (nothing ()) pre Quiet := by
  refine .peek fun next => ?_
  split
  · exact accounts_leaf (accounts_take_next rfl rfl)
  · exact accounts_failure

/-! ## Types -/

theorem accounts_namedType (isReturned : Bool) :
    (namedType isReturned).Accounts nothing (nothing ()) Quiet Anywhere := by
  have hnamed (start : Nat) : (qualifiedName >>= fun n => node "named_type" start [n]).Accounts
      nothing (nothing ()) Quiet Anywhere :=
    accounts_qualifiedName.andThen fun _ => accounts_of_still still_node
  refine .look still_position fun start => .look (still_isSymbol _ _) fun _ => ?_
  refine .look (still_peek _) fun next => ?_
  split
  · refine .ite (fun _ => hnamed _) fun _ => .ite (fun _ => accounts_leaf accounts_take_quiet) ?_
    exact fun _ => .ite (fun _ => accounts_leaf accounts_take_quiet) fun _ => hnamed _
  · exact hnamed _
  · exact accounts_failure

theorem still_joinsTypes : joinsTypes.Still := by
  refine still_bind (still_isSymbol _ _) fun _ => still_ite (still_pure _) ?_
  refine still_bind (still_peek _) fun next => ?_
  split <;> exact still_pure _

theorem accounts_intersection (isReturned : Bool) :
    (intersection isReturned).Accounts nothing (nothing ()) Quiet Anywhere := by
  refine .look still_position fun start => (accounts_namedType _).andThen fun first => ?_
  refine (accounts_collect_nothing (.look still_joinsTypes fun _ => .ite (fun _ => ?_) fun _ => ?_)).andThen
    fun rest => .ite (fun _ => accounts_return) fun _ => accounts_of_still still_node
  · exact accounts_symbol.andThen fun _ => (accounts_namedType _).andThen fun _ => accounts_return
  · exact accounts_return

theorem accounts_typeAlternative (isReturned : Bool) :
    (typeAlternative isReturned).Accounts nothing (nothing ()) Quiet Anywhere := by
  refine .ifAccept ?_ ?_
  · refine (accounts_intersection _).andThen fun inner => accounts_symbol.andThen fun _ => ?_
    exact accounts_return.anywhere
  · exact (accounts_intersection _).andThen fun _ => accounts_return

theorem accounts_typeExpression (isReturned : Bool) :
    (typeExpression isReturned).Accounts nothing (nothing ()) Quiet Anywhere := by
  refine .look still_position fun start => .ifAccept ?_ ?_
  · exact (accounts_namedType _).andThen fun _ => accounts_of_still still_node
  · refine (accounts_typeAlternative _).andThen fun first => ?_
    refine (accounts_collect_nothing (.ifAccept ?_ accounts_return)).andThen fun rest => ?_
    · exact (accounts_typeAlternative _).andThen fun _ => accounts_return
    · refine .ite (fun _ => accounts_of_still still_node) fun _ => ?_
      exact .ite (fun _ => accounts_return) fun _ => accounts_of_still still_node

theorem accounts_returnType : returnType.Accounts nothing (nothing ()) Quiet Anywhere :=
  .ifAccept ((accounts_typeExpression _).andThen fun _ => accounts_return) accounts_return.anywhere

/-! ## Attributes and modifiers -/

theorem accounts_skipBrackets (rounds depth : Nat) :
    (skipBrackets rounds depth).Accounts everything (nothing ()) pre Quiet := by
  induction rounds generalizing depth pre with
  | zero => exact accounts_failure
  | succ rounds ih =>
    refine .passOver fun token => ?_
    split
    · exact ih _
    · exact ih _
    · rename_i hlexeme
      refine .ite (fun _ => ?_) fun _ => ih _
      refine (accounts_pure (covers_nothing _)).before fun gap hgap => ?_
      obtain ⟨_, tokens⟩ := gap
      cases hgap
      exact quiet_of_not_isHead (by rw [hlexeme]; rfl) tokens
    · exact ih _

theorem accounts_attributes : attributes.Accounts ofNodes (nothing ()) Quiet Quiet := by
  refine accounts_covering (ofAny everything) (accounts_collect _ (.ifAccept ?_ ?_))
    (fun _ h => h) fun start groups input result rest hrun => ?_
  · refine .look still_get fun input => ?_
    refine (accounts_skipBrackets _ _).bind fun _ => accounts_pure fun _ _ h => by simp
  · exact accounts_pure (covers_nothing _)
  · cases groups with
    | nil =>
      cases hrun
      exact ⟨rfl, by simp⟩
    | cons group groups =>
      cases hrun
      refine ⟨rfl, fun head word _ hstart hstop => ?_⟩
      simp only [ofNodes, ofAny_cons, ofNode_withField]
      exact .inl (ofNode_of_isPassedOver rfl hstart hstop)

theorem isHead_of_modifierKind? {word : Keyword} (h : (modifierKind? word).isSome = true) :
    word.isHead = false := by
  cases word <;> first | rfl | cases h

/-- Whether a parenthesis closes after some tokens. -/
def ClosesAfter (skip : Nat) (gap : Gap) : Prop :=
  (gap.tokens[skip]?).map (·.lexeme) = some (.symbol .closeParen)

/-- A word in parentheses makes no suspect pair. -/
theorem accounts_parenthesizedWord : take.Accounts nothing (nothing ())
      (fun gap => gap.next? = some (.symbol .openParen) ∧ ClosesAfter 2 gap)
      (fun gap => gap.Quiet ∧ ClosesAfter 1 gap) ∧
    take.Accounts nothing (nothing ()) (fun gap => gap.Quiet ∧ ClosesAfter 1 gap)
      (fun gap => gap.next? = some (.symbol .closeParen)) := by
  constructor
  · refine accounts_take (fun before token tokens h head hhead hishead hfree => ?_) ?_
    · rw [quiet_of_symbol h.1 head hhead hishead _ rfl] at hfree
      cases hfree
    · rintro before token tokens ⟨hnext, hcloses⟩
      have hlexeme : token.lexeme = .symbol .openParen := Option.some.inj hnext
      exact ⟨quiet_of_not_isHead (by rw [hlexeme]; rfl) tokens, hcloses⟩
  · refine accounts_take (fun before token tokens h head hhead hishead hfree => ?_) ?_
    · rw [h.1 head hhead hishead _ rfl] at hfree
      cases hfree
    · rintro before token tokens ⟨-, hcloses⟩
      rw [Gap.next?, firstLexeme?, List.head?_eq_getElem?]
      exact hcloses

theorem accounts_modifiers : modifiers.Accounts nothing (nothing ()) Quiet Quiet := by
  refine accounts_collect_nothing (.keyword? fun found => ?_)
  split
  · exact accounts_return.before fun _ h => h.1
  · rename_i kind hkind
    obtain ⟨word, rfl, hword⟩ := Option.bind_eq_some_iff.mp hkind
    have hhead := @isHead_of_modifierKind? word (by rw [hword]; rfl)
    refine .look still_position fun start => ?_
    refine (accounts_discard (accounts_take_keyword hhead)).andThen fun _ => ?_
    have hnode : (node kind start [] >>= fun n => pure (some n)).Accounts nothing (nothing ())
        Quiet Quiet := (accounts_of_still still_node).andThen fun _ => accounts_return
    refine .ifSymbol ?_ ?_
    · refine .ask (fun tokens => (tokens[2]?).map (·.lexeme) == some (.symbol .closeParen))
        (fun _ => rfl) fun closes => .look (still_spelling _) fun _ => .ite (fun hlimit => ?_) fun _ => ?_
      · obtain rfl : closes = true := by
          simp only [Bool.and_eq_true] at hlimit
          exact hlimit.1.2
        refine (accounts_discard accounts_parenthesizedWord.1).before ?_ |>.andThen fun _ => ?_
        · exact fun gap h => ⟨h.1, beq_iff_eq.mp h.2⟩
        · exact (accounts_discard accounts_parenthesizedWord.2).andThen fun _ =>
            (accounts_discard accounts_take_symbol).andThen fun _ => hnode
      · exact hnode.before fun _ h => quiet_of_symbol h.1
    · refine .look (still_isSymbol _ _) fun _ => .look (still_spelling _) fun _ => ?_
      exact .ite (fun h => by simp at h) fun _ => hnode

end Namespacer.Grammar
