import Namespacer.Grammar.Statement

/-!
# What readers return

`Ensures r P` says that whatever the reader `r` returns satisfies `P`. It says
nothing about whether `r` succeeds, nor about the tokens that it takes, so most
steps of a reader can be passed over.
-/

namespace Namespacer.Grammar.Reader

variable {α β : Type} {P : α → Prop} {Q : β → Prop}

/-- Every result of `r` satisfies `P`. -/
def Ensures (r : Reader α) (P : α → Prop) : Prop :=
  ∀ input value rest, r.run input = some (value, rest) → P value

theorem ensures_pure {value : α} (h : P value) : (pure value : Reader α).Ensures P := by
  intro input result rest hrun
  cases hrun
  exact h

theorem ensures_failure : (failure : Reader α).Ensures P := by
  intro input result rest hrun
  cases hrun

theorem ensures_bind {r : Reader α} {f : α → Reader β} (hr : r.Ensures P)
    (hf : ∀ value, P value → (f value).Ensures Q) : (r >>= f).Ensures Q := by
  intro input result rest hrun
  rw [StateT.run_bind] at hrun
  obtain ⟨⟨value, middle⟩, hvalue, hresult⟩ := Option.bind_eq_some_iff.mp hrun
  exact hf value (hr input value middle hvalue) middle result rest hresult

/-- A step whose result does not matter. -/
theorem ensures_skip {r : Reader α} {f : α → Reader β} (hf : ∀ value, (f value).Ensures Q) :
    (r >>= f).Ensures Q := by
  intro input result rest hrun
  rw [StateT.run_bind] at hrun
  obtain ⟨⟨value, middle⟩, _, hresult⟩ := Option.bind_eq_some_iff.mp hrun
  exact hf value middle result rest hresult

theorem Ensures.mono {R : α → Prop} {r : Reader α} (hr : r.Ensures P)
    (h : ∀ value, P value → R value) : r.Ensures R := by
  intro input value rest hrun
  exact h value (hr input value rest hrun)

theorem Ensures.and {R : α → Prop} {r : Reader α} (hP : r.Ensures P) (hR : r.Ensures R) :
    r.Ensures fun value => P value ∧ R value := by
  intro input value rest hrun
  exact ⟨hP input value rest hrun, hR input value rest hrun⟩

theorem ensures_ite {c : Prop} [Decidable c] {r s : Reader α} (hr : c → r.Ensures P)
    (hs : ¬ c → s.Ensures P) : (if c then r else s).Ensures P := by
  split
  · exact hr ‹_›
  · exact hs ‹_›

/-- At most one part, which satisfies `S`. -/
def AtMostOne {γ : Type} (S : γ → Prop) (found : List γ) : Prop :=
  found = [] ∨ ∃ part, found = [part] ∧ S part

theorem AtMostOne.forall_mem {γ : Type} {S : γ → Prop} {found : List γ} (h : AtMostOne S found) :
    ∀ part ∈ found, S part := by
  rcases h with rfl | ⟨part, rfl, hpart⟩
  · simp
  · simpa using hpart

/-- A part that is read under a condition only. -/
theorem ensures_optional {γ : Type} {c : Prop} [Decidable c] {r : Reader α} {f : α → γ}
    {next : List γ → Reader β} {S : γ → Prop} (hr : r.Ensures fun value => S (f value))
    (hnext : ∀ found, AtMostOne S found → (next found).Ensures Q) :
    (if c then r >>= fun value => pure [f value] >>= next else pure [] >>= next).Ensures Q := by
  refine ensures_ite (fun _ => ?_) fun _ => ?_
  · exact ensures_bind hr fun value hvalue => hnext [f value] (Or.inr ⟨f value, rfl, hvalue⟩)
  · exact hnext [] (Or.inl rfl)

/-- A part that is read unless a condition holds. -/
theorem ensures_optional_else {γ : Type} {c : Prop} [Decidable c] {r : Reader α} {f : α → γ}
    {next : List γ → Reader β} {S : γ → Prop} (hr : r.Ensures fun value => S (f value))
    (hnext : ∀ found, AtMostOne S found → (next found).Ensures Q) :
    (if c then pure [] >>= next else r >>= fun value => pure [f value] >>= next).Ensures Q := by
  refine ensures_ite (fun _ => ?_) fun _ => ?_
  · exact hnext [] (Or.inl rfl)
  · exact ensures_bind hr fun value hvalue => hnext [f value] (Or.inr ⟨f value, rfl, hvalue⟩)

theorem ensures_node {R : Node → Prop} {kind : String} {start : Nat} {children : List Node}
    (h : ∀ stop, R (.node () kind true none start stop children)) :
    (node kind start children).Ensures R :=
  ensures_skip fun input => ensures_pure (h input.last)

theorem ensures_leaf {R : Node → Prop} {kind : String}
    (h : ∀ start stop, R (.node () kind true none start stop [])) : (leaf kind).Ensures R :=
  ensures_skip fun token => ensures_pure (h token.start token.stop)

theorem ensures_operator {R : Node → Prop} {kind : String}
    (h : ∀ start stop, R (.node () kind false (some "operator") start stop [])) :
    (operator kind).Ensures R :=
  ensures_skip fun token => ensures_pure (h token.start token.stop)

/-! ## Repetitions -/

theorem ensures_repeatFor {item : Reader (Option α)} (h : item.Ensures fun found => ∀ a ∈ found, P a)
    (rounds : Nat) : (repeatFor item rounds).Ensures fun items => ∀ a ∈ items, P a := by
  induction rounds with
  | zero => exact ensures_pure (by simp)
  | succ rounds ih =>
    refine ensures_bind h fun found hfound => ?_
    cases found with
    | none => exact ensures_pure (by simp)
    | some first =>
      refine ensures_bind ih fun items hitems => ensures_pure ?_
      simpa using ⟨hfound first rfl, hitems⟩

theorem ensures_collect {item : Reader (Option α)}
    (h : item.Ensures fun found => ∀ a ∈ found, P a) :
    (collect item).Ensures fun items => ∀ a ∈ items, P a :=
  ensures_skip fun _ => ensures_repeatFor h _

theorem ensures_extendFor {step : α → Reader (Option α)}
    (h : ∀ value, P value → (step value).Ensures fun found => ∀ a ∈ found, P a) (rounds : Nat)
    {value : α} (hvalue : P value) : (extendFor step rounds value).Ensures P := by
  induction rounds generalizing value with
  | zero => exact ensures_pure hvalue
  | succ rounds ih =>
    refine ensures_bind (h value hvalue) fun found hfound => ?_
    cases found with
    | none => exact ensures_pure hvalue
    | some next => exact ih (hfound next rfl)

theorem ensures_extend {step : α → Reader (Option α)}
    (h : ∀ value, P value → (step value).Ensures fun found => ∀ a ∈ found, P a) {value : α}
    (hvalue : P value) : (extend step value).Ensures P :=
  ensures_skip fun _ => ensures_extendFor h _ hvalue

theorem ensures_listUntil {close : Symbol} {item : Reader (List α)}
    (h : item.Ensures fun items => ∀ a ∈ items, P a) :
    (listUntil close item).Ensures fun items => ∀ a ∈ items, P a := by
  refine ensures_bind (P := fun items => ∀ found ∈ items, ∀ a ∈ found, P a) (ensures_collect ?_) ?_
  · refine ensures_skip fun closes => ensures_ite (fun _ => ensures_pure (by simp)) fun _ => ?_
    refine ensures_bind h fun found hfound => ensures_skip fun comma => ?_
    have hreturn : (pure (some found) : Reader (Option (List α))).Ensures
        fun found => ∀ items ∈ found, ∀ a ∈ items, P a := ensures_pure (by simpa using hfound)
    refine ensures_ite (fun _ => hreturn) fun _ => ensures_skip fun closes => ?_
    exact ensures_ite (fun _ => hreturn) fun _ => ensures_bind ensures_failure fun _ => False.elim
  · intro items hitems
    refine ensures_skip fun _ => ensures_pure ?_
    simpa using fun a found hfound => hitems found hfound a

theorem ensures_commaSeparated {item : Reader α} (h : item.Ensures P) :
    (commaSeparated item).Ensures fun items => ∀ a ∈ items, P a := by
  refine ensures_bind h fun first hfirst => ?_
  refine ensures_bind (ensures_collect (P := P) ?_) fun rest hrest => ensures_pure ?_
  · refine ensures_skip fun comma => ensures_ite (fun _ => ?_) fun _ => ensures_pure (by simp)
    exact ensures_bind h fun next hnext => ensures_pure (by simpa using hnext)
  · simpa using ⟨hfirst, hrest⟩

end Namespacer.Grammar.Reader
