import Pseudocode.Proofs.Diagnostics
import Pseudocode.Proofs.Refinement

/-!
# The nodes of the trees that are read

A tree is walked over from left to right, each node after what stands below it. Whatever the tokens
are, a tree that is read from them has operators between expressions only, and the place of every
operator is the place of a token that spells it.

## Main definitions

* `Tree.nodes`: the nodes of a tree, each with what stands below it.
* `Tree.IsExpression`: trees that are made of leaves and operators alone.
* `Tree.Sound`: nodes among which all values are expressions.
* `Rule.Gives`: a rule whose results have a property if the tokens of the stream have one.

## Main results

* `Grammar.gives_expression`: an expression that is read is made of leaves and operators.
* `Grammar.gives_program`: so is every value in a program that is read.
-/

namespace Pseudocode

namespace Tree

variable {α β : Type}

/-! ### Nodes -/

mutual

/-- The nodes of a tree from left to right, each behind those below it. -/
def nodes : Tree α → List (Tree α)
  | sequence items => nodesAll items ++ [sequence items]
  | cell id => [cell id]
  | assignment target expression => expression.nodes ++ [assignment target expression]
  | binary op span lhs rhs => lhs.nodes ++ (rhs.nodes ++ [binary op span lhs rhs])
  | unary op span operand => operand.nodes ++ [unary op span operand]
  | ifThen condition body => condition.nodes ++ (body.nodes ++ [ifThen condition body])
  | choice arms => nodesArms arms ++ [choice arms]
  | whileDo condition body => condition.nodes ++ (body.nodes ++ [whileDo condition body])
  | repeatUntil body condition => body.nodes ++ (condition.nodes ++ [repeatUntil body condition])
  | forLoop init condition step body =>
    nodesClause init ++ (condition.nodes ++ (nodesClause step ++ (body.nodes ++
      [forLoop init condition step body])))
  | read cells => [read cells]
  | write items => nodesItems items ++ [write items]

/-- `Tree.nodes` along a list. -/
def nodesAll : List (Tree α) → List (Tree α)
  | [] => []
  | t :: ts => t.nodes ++ nodesAll ts

/-- `Tree.nodes` inside an arm of a choice. -/
def nodesArm : Arm α → List (Tree α)
  | .guarded condition body => condition.nodes ++ body.nodes
  | .otherwise body => body.nodes

/-- `Tree.nodes` along the arms of a choice. -/
def nodesArms : List (Arm α) → List (Tree α)
  | [] => []
  | arm :: arms => nodesArm arm ++ nodesArms arms

/-- `Tree.nodes` inside a clause. -/
def nodesClause : Clause α → List (Tree α)
  | .absent => []
  | .assign _ expression => expression.nodes

/-- `Tree.nodes` inside an item of an output instruction. -/
def nodesItem : Item α → List (Tree α)
  | .value expression => expression.nodes
  | .text _ => []

/-- `Tree.nodes` along the items of an output instruction. -/
def nodesItems : List (Item α) → List (Tree α)
  | [] => []
  | item :: items => nodesItem item ++ nodesItems items

end

theorem nodesAll_eq_flatMap (ts : List (Tree α)) : nodesAll ts = ts.flatMap nodes := by
  induction ts with
  | nil => rfl
  | cons t ts ih => rw [nodesAll, ih, List.flatMap_cons]

theorem nodesArms_eq_flatMap (arms : List (Arm α)) : nodesArms arms = arms.flatMap nodesArm := by
  induction arms with
  | nil => rfl
  | cons arm arms ih => rw [nodesArms, ih, List.flatMap_cons]

theorem nodesItems_eq_flatMap (items : List (Item α)) :
    nodesItems items = items.flatMap nodesItem := by
  induction items with
  | nil => rfl
  | cons item items ih => rw [nodesItems, ih, List.flatMap_cons]

/-- Whether the node at the root stands for a value: a leaf or an operator. -/
def isValue : Tree α → Bool
  | cell _ | binary _ _ _ _ | unary _ _ _ => true
  | _ => false

/-- The operator at the root, and where it is written. -/
def operator? : Tree α → Option (Operator × Span)
  | binary op span _ _ => some (op, span)
  | unary op span _ => some (op, span)
  | _ => none

/-! ### Expressions -/

/-- A tree that is made of leaves and operators alone, each operator with as many operands as it
looks at and each at a place that is right for it. -/
inductive IsExpression (R : Operator → Span → Prop) : Tree α → Prop
  | cell (id : α) : IsExpression R (cell id)
  | binary {op : Operator} {span : Span} {lhs rhs : Tree α} (hop : op.isUnary = false)
      (hspan : R op span) (hlhs : IsExpression R lhs) (hrhs : IsExpression R rhs) :
      IsExpression R (binary op span lhs rhs)
  | unary {op : Operator} {span : Span} {operand : Tree α} (hop : op.isUnary = true)
      (hspan : R op span) (h : IsExpression R operand) : IsExpression R (unary op span operand)

/-- All values among the nodes are expressions. -/
def Sound (R : Operator → Span → Prop) (nodes : List (Tree α)) : Prop :=
  ∀ n ∈ nodes, n.isValue = true → n.IsExpression R

variable {R : Operator → Span → Prop} {t : Tree α}

theorem sound_nil : Sound R ([] : List (Tree α)) :=
  fun _ hn ↦ absurd hn List.not_mem_nil

/-- The root of an instruction is no value. -/
theorem sound_singleton (h : t.isValue = false) : Sound R [t] := by
  intro n hn hvalue
  rw [List.mem_singleton.1 hn, h] at hvalue
  cases hvalue

theorem IsExpression.sound_singleton (h : t.IsExpression R) : Sound R [t] := by
  intro n hn _
  rw [List.mem_singleton.1 hn]
  exact h

theorem Sound.append {ns ns' : List (Tree α)} (h : Sound R ns) (h' : Sound R ns') :
    Sound R (ns ++ ns') :=
  List.forall_mem_append.2 ⟨h, h'⟩

theorem sound_flatMap {xs : List β} {f : β → List (Tree α)} (h : ∀ x ∈ xs, Sound R (f x)) :
    Sound R (xs.flatMap f) := by
  intro n hn
  obtain ⟨x, hx, hn⟩ := List.mem_flatMap.1 hn
  exact h x hx n hn

/-- The nodes of an expression are expressions. -/
theorem IsExpression.sound (h : t.IsExpression R) : Sound R t.nodes := by
  induction h with
  | cell id => exact IsExpression.sound_singleton (.cell id)
  | binary hop hspan hlhs hrhs ihl ihr =>
    exact ihl.append (ihr.append (IsExpression.sound_singleton (.binary hop hspan hlhs hrhs)))
  | unary hop hspan h ih => exact ih.append (IsExpression.sound_singleton (.unary hop hspan h))

theorem IsExpression.map (h : t.IsExpression R) (f : α → β) : (t.map f).IsExpression R := by
  induction h with
  | cell id => exact .cell _
  | binary hop hspan _ _ hlhs hrhs => exact .binary hop hspan hlhs hrhs
  | unary hop hspan _ ih => exact .unary hop hspan ih

/-- Among sound nodes every operator is at a place that is right for it. -/
theorem Sound.of_operator? {ns : List (Tree α)} (h : Sound R ns) (ht : t ∈ ns) {op : Operator}
    {span : Span} (hop : t.operator? = some (op, span)) : R op span := by
  cases t with
  | binary =>
    cases hop
    cases h _ ht rfl with
    | binary _ hspan => exact hspan
  | unary =>
    cases hop
    cases h _ ht rfl with
    | unary _ hspan => exact hspan
  | _ => cases hop

end Tree

/-! ### What rules give -/

namespace Rule

variable {α β : Type} {Q : Token → Prop} {P : α → Prop} {P' : β → Prop}

/-- If the tokens of `s` satisfy `Q`, then so do those that the rule leaves of it, and what the rule
reads satisfies `P`. -/
def GivesAt (Q : Token → Prop) (P : α → Prop) (r : Rule α) (s : Stream) : Prop :=
  (∀ t ∈ s.all, Q t) → (∀ t ∈ (r s).rest.all, Q t) ∧ ∀ a, (r s).result = .ok a → P a

/-- Whatever the rule reads from tokens that satisfy `Q` satisfies `P`. -/
def Gives (Q : Token → Prop) (P : α → Prop) (r : Rule α) : Prop :=
  ∀ s, r.GivesAt Q P s

theorem gives_pure {a : α} (h : P a) : (pure a : Rule α).Gives Q P := by
  refine fun s hs ↦ ⟨hs, fun b hb ↦ ?_⟩
  cases hb
  exact h

theorem gives_stop (e : Failure) : (stop e : Rule α).Gives Q P :=
  fun _ hs ↦ ⟨hs, fun _ ha ↦ nomatch ha⟩

theorem gives_leave (e : Event) : (leave e).Gives Q fun _ ↦ True :=
  fun _ hs ↦ ⟨hs, fun _ _ ↦ trivial⟩

theorem gives_atEnd : atEnd.Gives Q fun _ ↦ True :=
  fun _ hs ↦ ⟨hs, fun _ _ ↦ trivial⟩

theorem gives_advance : advance.Gives Q fun _ ↦ True :=
  fun s hs ↦ ⟨fun t ht ↦ hs t (s.all_advance_suffix.mem ht), fun _ _ ↦ trivial⟩

theorem gives_skipUntil (p : Token → Bool) : (skipUntil p).Gives Q fun _ ↦ True :=
  fun s hs ↦ ⟨fun t ht ↦ hs t ((s.all_dropUntil_suffix p).mem ht), fun _ _ ↦ trivial⟩

theorem GivesAt.bind {r : Rule α} {f : α → Rule β} {s : Stream} (hr : r.GivesAt Q P s)
    (hf : ∀ a, P a → (f a).Gives Q P') : (r >>= f).GivesAt Q P' s := by
  intro hs
  obtain ⟨hrest, hresult⟩ := hr hs
  cases ha : (r s).result with
  | error e =>
    rw [bind_of_error f ha]
    exact ⟨hrest, fun b hb ↦ nomatch hb⟩
  | ok a =>
    rw [bind_of_ok f ha]
    exact hf a (hresult a ha) _ hrest

theorem Gives.bind {r : Rule α} {f : α → Rule β} (hr : r.Gives Q P)
    (hf : ∀ a, P a → (f a).Gives Q P') : (r >>= f).Gives Q P' :=
  fun s ↦ (hr s).bind hf

/-- What follows a look at the next token may depend on that token. -/
theorem gives_peek_bind {f : Token → Rule β} (h : ∀ t, Q t → (f t).Gives Q P') :
    (peek >>= f).Gives Q P' := by
  intro s hs
  rw [peek_bind]
  exact h _ (hs _ s.peek_mem_all) s hs

theorem gives_spanOf (t : Token) :
    (spanOf t).Gives Q fun span ↦ span.start = t.start ∧ span.stop = t.stop := by
  unfold spanOf
  split
  · next span hspan => exact gives_pure (Span.between?_eq_some_iff.1 hspan)
  · exact gives_stop _

theorem gives_fail (wanted : Expectation) : (fail wanted : Rule α).Gives Q P :=
  gives_peek_bind fun t _ ↦ (gives_spanOf t).bind fun _ _ ↦ gives_stop _

theorem gives_expect (c : Token.Category) : (expect c).Gives Q fun _ ↦ True := by
  refine gives_peek_bind fun t _ ↦ ?_
  split
  · exact gives_advance
  · exact gives_fail _

/-- A token of a given class may stand in front. -/
theorem gives_expect_bind (c : Token.Category) {f : Unit → Rule β} (hf : (f ()).Gives Q P') :
    (expect c >>= f).Gives Q P' :=
  (gives_expect c).bind fun _ _ ↦ hf

theorem gives_meet (x : Symbol) : (meet x).Gives Q fun _ ↦ True :=
  (gives_leave _).bind fun _ _ ↦ gives_pure trivial

/-- A rule that is repeated may count on what made it come round. -/
theorem gives_many {starts : Token.Kind → Option β} {item : β → Rule α}
    (hitem : ∀ b s, starts s.peek.kind = some b → (item b).GivesAt Q P s) :
    (many starts item).Gives Q fun as ↦ ∀ a ∈ as, P a := by
  have along (bound : List Token) :
      (manyAlong starts item bound).Gives Q fun as ↦ ∀ a ∈ as, P a := by
    induction bound with
    | nil => exact gives_pure fun _ ha ↦ absurd ha List.not_mem_nil
    | cons t bound ih =>
      intro s
      rw [manyAlong, GivesAt, peek_bind]
      cases hb : starts s.peek.kind with
      | none => exact gives_pure (fun _ ha ↦ absurd ha List.not_mem_nil) s
      | some b =>
        exact (hitem b s hb).bind (fun first hfirst ↦ ih.bind fun others hothers ↦
          gives_pure (List.forall_mem_cons.2 ⟨hfirst, hothers⟩))
  exact fun s ↦ along s.ahead s

theorem gives_list {item : Rule α} (hitem : item.Gives Q P) :
    (list item).Gives Q fun as ↦ ∀ a ∈ as, P a :=
  hitem.bind fun _ hfirst ↦
    (gives_many fun _ s _ ↦ gives_expect_bind _ hitem s).bind fun _ hothers ↦
      gives_pure (List.forall_mem_cons.2 ⟨hfirst, hothers⟩)

theorem gives_parenthesized {item : Rule α} (hitem : item.Gives Q P) :
    (parenthesized item).Gives Q P :=
  gives_expect_bind _ <| hitem.bind fun _ ha ↦ gives_expect_bind _ (gives_pure ha)

theorem gives_nest {base : Rule α} {rule : Rule α → Rule α} (hbase : base.Gives Q P)
    (hrule : ∀ {p}, p.Gives Q P → (rule p).Gives Q P) : (nest base rule).Gives Q P := by
  have along (bound : List Token) : (nestAlong base rule bound).Gives Q P := by
    induction bound with
    | nil => exact hbase
    | cons t bound ih => exact hrule ih
  exact fun s ↦ hrule (along s.ahead) s

/-- A syntax error that is turned into a value leaves the same stream. -/
theorem gives_attempt {r : Rule α} (hr : r.Gives Q P) :
    (attempt r).Gives Q fun result ↦ ∀ a, result = .ok a → P a := by
  intro s hs
  obtain ⟨hrest, hresult⟩ := hr s hs
  rw [attempt]
  rcases h : (r s).result with (e | t) | a
  · refine ⟨hrest, fun result hok ↦ ?_⟩
    cases hok
    intro b hb
    cases hb
  · refine ⟨hrest, fun result hok ↦ ?_⟩
    cases hok
  · refine ⟨hrest, fun result hok ↦ ?_⟩
    cases hok
    intro b hb
    cases hb
    exact hresult a h

end Rule

/-! ### What the grammar gives -/

/-- The span is that of a token which satisfies `Q` and is spelled like the operator. -/
def Operator.SpelledAt (Q : Token → Prop) (op : Operator) (span : Span) : Prop :=
  ∃ t, Q t ∧ t.kind.text = op.text ∧ span.start = t.start ∧ span.stop = t.stop

namespace Grammar

open Rule
open Operator (SpelledAt)
open Pseudocode.Tree (IsExpression Sound)

variable {Q : Token → Prop}

/-! #### Expressions -/

/-- Attaching a link to an expression makes an expression. -/
theorem isExpression_foldl_attach {R : Operator → Span → Prop} {links : List Link}
    (hlinks : ∀ l ∈ links, l.op.isUnary = false ∧ R l.op l.span ∧ l.operand.IsExpression R)
    {first : Tree Symbol} (hfirst : first.IsExpression R) :
    (links.foldl Link.attach first).IsExpression R := by
  induction links generalizing first with
  | nil => exact hfirst
  | cons l links ih =>
    obtain ⟨⟨hop, hspan, hoperand⟩, hlinks⟩ := List.forall_mem_cons.1 hlinks
    exact ih hlinks (.binary hop hspan hfirst hoperand)

theorem gives_chain {factor : Rule (Tree Symbol)}
    (hfactor : factor.Gives Q (IsExpression (SpelledAt Q))) :
    (chain factor).Gives Q (IsExpression (SpelledAt Q)) := by
  have hlink (op : Operator) (s : Stream) (hop : Operator.ofKind? s.peek.kind = some op) :
      (link factor op).GivesAt Q (fun l ↦ l.op.isUnary = false ∧ SpelledAt Q l.op l.span ∧
        l.operand.IsExpression (SpelledAt Q)) s := by
    intro hs
    rw [link, peek_bind]
    refine ((gives_spanOf s.peek).bind fun span hspan ↦ gives_advance.bind fun _ _ ↦
      hfactor.bind fun operand hoperand ↦ gives_pure ⟨?_, ?_, hoperand⟩) s hs
    · exact Operator.isUnary_of_ofKind? hop
    · exact ⟨s.peek, hs _ s.peek_mem_all, Operator.text_of_ofKind? hop, hspan⟩
  exact hfactor.bind fun first hfirst ↦ (gives_many hlink).bind fun links hlinks ↦
    gives_pure (isExpression_foldl_attach hlinks hfirst)

/-- The operator that a factor of the form starts with. -/
def Factor.operator? : Factor → Option Operator
  | negative => some .subtract
  | negated => some .not
  | leaf _ | group => none

/-- A token in front of a factor is spelled like the operator that it stands for. -/
theorem Factor.text_of_operator? {kind : Token.Kind} {form : Factor} {op : Operator}
    (hform : ofKind? kind = some form) (hop : form.operator? = some op) : kind.text = op.text := by
  unfold ofKind? at hform
  split at hform <;> cases hform <;> cases hop <;> rfl

theorem gives_factorRule {p : Rule (Tree Symbol)} (hp : p.Gives Q (IsExpression (SpelledAt Q))) :
    (factorRule p).Gives Q (IsExpression (SpelledAt Q)) := by
  refine gives_peek_bind fun t ht ↦ ?_
  split
  · exact gives_advance.bind fun _ _ ↦ (gives_meet _).bind fun _ _ ↦ gives_pure (.cell _)
  · next hform =>
    have htext := Factor.text_of_operator? hform rfl
    exact gives_advance.bind fun _ _ ↦ (gives_meet _).bind fun _ _ ↦ hp.bind fun _ hoperand ↦
      (gives_spanOf t).bind fun _ hspan ↦
        gives_pure (.binary rfl ⟨t, ht, htext, hspan⟩ (.cell _) hoperand)
  · next hform =>
    have htext := Factor.text_of_operator? hform rfl
    exact gives_advance.bind fun _ _ ↦ hp.bind fun _ hoperand ↦
      (gives_spanOf t).bind fun _ hspan ↦ gives_pure (.unary rfl ⟨t, ht, htext, hspan⟩ hoperand)
  · exact gives_parenthesized (gives_chain hp)
  · exact gives_fail _

/-- An expression that is read is made of leaves and operators, each at its own token. -/
theorem gives_expression : expression.Gives Q (IsExpression (SpelledAt Q)) :=
  gives_chain (gives_nest (gives_fail _) gives_factorRule)

/-! #### Instructions -/

theorem gives_variableName : variableName.Gives Q fun _ ↦ True := by
  refine gives_peek_bind fun t _ ↦ ?_
  split
  · exact gives_advance.bind fun _ _ ↦ gives_meet _
  · exact gives_fail _

theorem gives_assignment : assignment.Gives Q fun x ↦ x.2.IsExpression (SpelledAt Q) :=
  gives_variableName.bind fun _ _ ↦ gives_expect_bind _ <|
    gives_expression.bind fun _ hvalue ↦ gives_pure hvalue

theorem gives_clauseBefore (closing : Punctuator) :
    (clauseBefore closing).Gives Q fun c ↦ Sound (SpelledAt Q) (Tree.nodesClause c) := by
  refine gives_peek_bind fun t _ ↦ ?_
  split
  · exact gives_pure Tree.sound_nil
  · exact gives_assignment.bind fun _ hvalue ↦ gives_pure hvalue.sound

theorem gives_condition : condition.Gives Q (IsExpression (SpelledAt Q)) :=
  gives_parenthesized gives_expression

theorem gives_item : item.Gives Q fun i ↦ Sound (SpelledAt Q) (Tree.nodesItem i) := by
  refine gives_peek_bind fun t _ ↦ ?_
  split
  · exact gives_advance.bind fun _ _ ↦ gives_pure Tree.sound_nil
  · exact gives_expression.bind fun _ hvalue ↦ gives_pure hvalue.sound

section Inner

variable {p : Rule (Tree Symbol)} (hp : p.Gives Q fun t ↦ Sound (SpelledAt Q) t.nodes)

include hp

theorem gives_sequenceOf : (sequenceOf p).Gives Q fun t ↦ Sound (SpelledAt Q) t.nodes := by
  refine hp.bind fun first hfirst ↦ (gives_many fun _ s _ ↦ hp s).bind fun others hothers ↦
    gives_pure (Sound.append ?_ (Tree.sound_singleton rfl))
  rw [Tree.nodesAll_eq_flatMap]
  exact Tree.sound_flatMap (List.forall_mem_cons.2 ⟨hfirst, hothers⟩)

theorem gives_guardedArm :
    (guardedArm p).Gives Q fun arm ↦ Sound (SpelledAt Q) (Tree.nodesArm arm) :=
  gives_expect_bind _ <| gives_condition.bind fun _ htest ↦
    (gives_sequenceOf hp).bind fun _ hbody ↦ gives_pure (htest.sound.append hbody)

theorem gives_lastArm :
    (lastArm p).Gives Q fun arms ↦ ∀ arm ∈ arms, Sound (SpelledAt Q) (Tree.nodesArm arm) := by
  refine gives_peek_bind fun t _ ↦ ?_
  split
  · exact gives_advance.bind fun _ _ ↦ (gives_sequenceOf hp).bind fun _ hbody ↦
      gives_pure (List.forall_mem_singleton.2 hbody)
  · exact gives_pure fun _ harm ↦ absurd harm List.not_mem_nil

theorem gives_furtherArms :
    (furtherArms p).Gives Q fun arms ↦ ∀ arm ∈ arms, Sound (SpelledAt Q) (Tree.nodesArm arm) :=
  (gives_many fun _ s _ ↦ gives_guardedArm hp s).bind fun _ hguarded ↦
    (gives_lastArm hp).bind fun _ hlast ↦ gives_pure (List.forall_mem_append.2 ⟨hguarded, hlast⟩)

theorem gives_ifThen : (ifThen p).Gives Q fun t ↦ Sound (SpelledAt Q) t.nodes := by
  refine gives_expect_bind _ <| gives_condition.bind fun test htest ↦
    (gives_sequenceOf hp).bind fun body hbody ↦ (gives_furtherArms hp).bind fun arms harms ↦
      gives_expect_bind _ (gives_pure ?_)
  split
  · exact htest.sound.append (hbody.append (Tree.sound_singleton rfl))
  · refine Sound.append ?_ (Tree.sound_singleton rfl)
    rw [Tree.nodesArms_eq_flatMap]
    exact Tree.sound_flatMap (List.forall_mem_cons.2 ⟨htest.sound.append hbody, harms⟩)

theorem gives_formRule (form : Form) :
    (formRule p form).Gives Q fun t ↦ Sound (SpelledAt Q) t.nodes := by
  have hsequence := gives_sequenceOf hp
  cases form with
  | assignment =>
    exact gives_assignment.bind fun _ hvalue ↦ gives_expect_bind _
      (gives_pure (hvalue.sound.append (Tree.sound_singleton rfl)))
  | ifThen => exact gives_ifThen hp
  | repeatUntil =>
    exact gives_expect_bind _ <| hsequence.bind fun _ hbody ↦ gives_expect_bind _ <|
      gives_condition.bind fun _ htest ↦
        gives_pure (hbody.append (htest.sound.append (Tree.sound_singleton rfl)))
  | whileDo =>
    exact gives_expect_bind _ <| gives_condition.bind fun _ htest ↦ hsequence.bind fun _ hbody ↦
      gives_expect_bind _
        (gives_pure (htest.sound.append (hbody.append (Tree.sound_singleton rfl))))
  | forLoop =>
    exact gives_expect_bind _ <| gives_expect_bind _ <|
      (gives_clauseBefore _).bind fun _ hinit ↦ gives_expect_bind _ <|
        gives_expression.bind fun _ htest ↦ gives_expect_bind _ <|
          (gives_clauseBefore _).bind fun _ hstep ↦ gives_expect_bind _ <|
            hsequence.bind fun _ hbody ↦ gives_expect_bind _ (gives_pure
              (hinit.append (htest.sound.append (hstep.append (hbody.append
                (Tree.sound_singleton rfl))))))
  | write =>
    refine gives_expect_bind _ <| (gives_parenthesized (gives_list gives_item)).bind
      fun items hitems ↦ gives_pure (Sound.append ?_ (Tree.sound_singleton rfl))
    rw [Tree.nodesItems_eq_flatMap]
    exact Tree.sound_flatMap hitems
  | read =>
    exact gives_expect_bind _ <| (gives_parenthesized (gives_list gives_variableName)).bind
      fun _ _ ↦ gives_pure (Tree.sound_singleton rfl)

theorem gives_bareInstruction :
    (bareInstruction p).Gives Q fun t ↦ Sound (SpelledAt Q) t.nodes := by
  refine gives_peek_bind fun t _ ↦ ?_
  split
  · exact gives_formRule hp _
  · exact gives_fail _

theorem gives_instructionRule :
    (instructionRule p).Gives Q fun t ↦ Sound (SpelledAt Q) t.nodes := by
  refine (gives_attempt (gives_bareInstruction hp)).bind fun result hresult ↦ ?_
  cases result with
  | ok tree => exact (gives_leave _).bind fun _ _ ↦ gives_pure (hresult tree rfl)
  | error e =>
    refine (gives_leave _).bind fun _ _ ↦ gives_advance.bind fun _ _ ↦
      (gives_skipUntil _).bind fun _ _ ↦ gives_atEnd.bind fun atEnd _ ↦ ?_
    split
    · exact gives_stop _
    · exact hp

end Inner

/-- Every value in a program that is read is an expression, each operator at its own token. -/
theorem gives_program : program.Gives Q fun t ↦ Sound (SpelledAt Q) t.nodes :=
  gives_expect_bind _ <| gives_expect_bind _ <| gives_expect_bind _ <| gives_expect_bind _ <|
    (gives_sequenceOf (gives_nest (gives_fail _) gives_instructionRule)).bind fun _ hbody ↦
      gives_expect_bind _ <| gives_expect_bind _ (gives_pure hbody)

end Grammar

end Pseudocode
