import Pseudocode.Proofs.Derivation.Part

/-!
# Instructions are read as they are derived

A reader that does not recover from errors reads exactly the derivations of instructions. Such a
reader is the rule of a single instruction that refers to itself where the real one tries again
behind an error.

## Main definitions

* `Phrase.instruction`, `Phrase.sequence`, `Phrase.guarded`, `Phrase.lastArm`: the phrases of
  instructions and of what they are made of.
* `Grammar.strictInstruction`: one instruction without recovery.

## Main results

* `Phrase.readBy_strictInstruction`: the rule reads the phrase.
-/

namespace Pseudocode

open Token (Kind Category)

namespace Derivation

/-! ### The tokens of instructions -/

mutual

theorem Instruction.ordered : ∀ (d : Instruction), ∀ t ∈ d.tokens, t.Ordered
  | .assignment a semicolon => by
    intro t ht
    rw [Instruction.tokens, List.mem_append, List.mem_singleton] at ht
    rcases ht with ht | rfl
    · exact a.ordered t ht
    · exact semicolon.ordered
  | .ifThen si test body finsi => by
    intro t ht
    simp only [Instruction.tokens, List.mem_cons, List.mem_append, List.not_mem_nil,
      or_false] at ht
    rcases ht with rfl | ht | ht | rfl
    · exact si.ordered
    · exact Phrase.expression.enclosed.ordered test t ht
    · exact body.ordered t ht
    · exact finsi.ordered
  | .choice si test body tail => by
    intro t ht
    simp only [Instruction.tokens, List.mem_cons, List.mem_append] at ht
    rcases ht with rfl | ht | ht | ht
    · exact si.ordered
    · exact Phrase.expression.enclosed.ordered test t ht
    · exact body.ordered t ht
    · exact tail.ordered t ht
  | .repeatUntil repeter body jusqua test => by
    intro t ht
    simp only [Instruction.tokens, List.mem_cons, List.mem_append] at ht
    rcases ht with rfl | ht | rfl | ht
    · exact repeter.ordered
    · exact body.ordered t ht
    · exact jusqua.ordered
    · exact Phrase.expression.enclosed.ordered test t ht
  | .whileDo tantque test body fintantque => by
    intro t ht
    simp only [Instruction.tokens, List.mem_cons, List.mem_append, List.not_mem_nil,
      or_false] at ht
    rcases ht with rfl | ht | ht | rfl
    · exact tantque.ordered
    · exact Phrase.expression.enclosed.ordered test t ht
    · exact body.ordered t ht
    · exact fintantque.ordered
  | .forLoop pour opening init semicolon test semicolon' step closing body finpour => by
    intro t ht
    simp only [Instruction.tokens, List.mem_cons, List.mem_append, List.not_mem_nil,
      or_false] at ht
    rcases ht with rfl | rfl | ht | rfl | ht | rfl | ht | rfl | ht | rfl
    · exact pour.ordered
    · exact opening.ordered
    · exact Assignment.ordered? init t ht
    · exact semicolon.ordered
    · exact test.ordered t ht
    · exact semicolon'.ordered
    · exact Assignment.ordered? step t ht
    · exact closing.ordered
    · exact body.ordered t ht
    · exact finpour.ordered
  | .write ecrire items => by
    intro t ht
    rw [Instruction.tokens, List.mem_cons] at ht
    rcases ht with rfl | ht
    · exact ecrire.ordered
    · exact Phrase.item.listed.enclosed.ordered items t ht
  | .read lire cells => by
    intro t ht
    rw [Instruction.tokens, List.mem_cons] at ht
    rcases ht with rfl | ht
    · exact lire.ordered
    · exact (Phrase.terminal Kind.name?).listed.enclosed.ordered cells t ht
termination_by structural d => d

theorem Sequence.ordered : ∀ (d : Sequence), ∀ t ∈ d.tokens, t.Ordered
  | .mk first others => by
    intro t ht
    rw [Sequence.tokens, List.mem_append] at ht
    rcases ht with ht | ht
    · exact first.ordered t ht
    · exact Instruction.orderedAll others t ht
termination_by structural d => d

theorem Instruction.orderedAll :
    ∀ (ds : List Instruction), ∀ t ∈ Instruction.tokensAll ds, t.Ordered
  | [] => by
    intro t ht
    rw [Instruction.tokensAll] at ht
    cases ht
  | d :: ds => by
    intro t ht
    rw [Instruction.tokensAll, List.mem_append] at ht
    rcases ht with ht | ht
    · exact d.ordered t ht
    · exact Instruction.orderedAll ds t ht
termination_by structural ds => ds

theorem Guarded.ordered : ∀ (d : Guarded), ∀ t ∈ d.tokens, t.Ordered
  | .mk sinonsi test body => by
    intro t ht
    rw [Guarded.tokens, List.mem_cons, List.mem_append] at ht
    rcases ht with rfl | ht | ht
    · exact sinonsi.ordered
    · exact Phrase.expression.enclosed.ordered test t ht
    · exact body.ordered t ht
termination_by structural d => d

theorem Guarded.orderedAll : ∀ (ds : List Guarded), ∀ t ∈ Guarded.tokensAll ds, t.Ordered
  | [] => by
    intro t ht
    rw [Guarded.tokensAll] at ht
    cases ht
  | d :: ds => by
    intro t ht
    rw [Guarded.tokensAll, List.mem_append] at ht
    rcases ht with ht | ht
    · exact d.ordered t ht
    · exact Guarded.orderedAll ds t ht
termination_by structural ds => ds

theorem Otherwise.ordered : ∀ (d : Otherwise), ∀ t ∈ d.tokens, t.Ordered
  | .mk sinon body => by
    intro t ht
    rw [Otherwise.tokens, List.mem_cons] at ht
    rcases ht with rfl | ht
    · exact sinon.ordered
    · exact body.ordered t ht
termination_by structural d => d

theorem Otherwise.ordered? : ∀ (d : Option Otherwise), ∀ t ∈ Otherwise.tokens? d, t.Ordered
  | none => by
    intro t ht
    rw [Otherwise.tokens?] at ht
    cases ht
  | some d => by
    intro t ht
    rw [Otherwise.tokens?] at ht
    exact d.ordered t ht
termination_by structural d => d

theorem Tail.ordered : ∀ (d : Tail), ∀ t ∈ d.tokens, t.Ordered
  | .guarded first others last finsi => by
    intro t ht
    simp only [Tail.tokens, List.mem_append, List.mem_singleton] at ht
    rcases ht with ht | ht | ht | rfl
    · exact first.ordered t ht
    · exact Guarded.orderedAll others t ht
    · exact Otherwise.ordered? last t ht
    · exact finsi.ordered
  | .otherwise last finsi => by
    intro t ht
    rw [Tail.tokens, List.mem_append, List.mem_singleton] at ht
    rcases ht with ht | rfl
    · exact last.ordered t ht
    · exact finsi.ordered
termination_by structural d => d

end

theorem Instruction.tokensAll_eq_flatMap (ds : List Instruction) :
    Instruction.tokensAll ds = ds.flatMap Instruction.tokens := by
  induction ds with
  | nil => rfl
  | cons d ds ih => rw [Instruction.tokensAll, ih, List.flatMap_cons]

theorem Guarded.tokensAll_eq_flatMap (ds : List Guarded) :
    Guarded.tokensAll ds = ds.flatMap Guarded.tokens := by
  induction ds with
  | nil => rfl
  | cons d ds ih => rw [Guarded.tokensAll, ih, List.flatMap_cons]

theorem Instruction.treeAll_eq_map (ds : List Instruction) :
    Instruction.treeAll ds = ds.map Instruction.tree := by
  induction ds with
  | nil => rfl
  | cons d ds ih => rw [Instruction.treeAll, ih, List.map_cons]

theorem Guarded.arms_eq_map (ds : List Guarded) : Guarded.arms ds = ds.map Guarded.arm := by
  induction ds with
  | nil => rfl
  | cons d ds ih => rw [Guarded.arms, ih, List.map_cons]

instance : Nonempty Instruction :=
  (inferInstance : Nonempty (Assignment × Mark .semicolon)).elim fun ⟨a, semicolon⟩ ↦
    ⟨.assignment a semicolon⟩

instance : Nonempty Sequence :=
  (inferInstance : Nonempty Instruction).elim fun d ↦ ⟨.mk d []⟩

instance : Nonempty (Option Otherwise) :=
  ⟨none⟩

/-- The form of an instruction. -/
def Instruction.form : Instruction → Grammar.Form
  | .assignment _ _ => .assignment
  | .ifThen _ _ _ _ => .ifThen
  | .choice _ _ _ _ => .ifThen
  | .repeatUntil _ _ _ _ => .repeatUntil
  | .whileDo _ _ _ _ => .whileDo
  | .forLoop _ _ _ _ _ _ _ _ _ _ => .forLoop
  | .write _ _ => .write
  | .read _ _ => .read

/-- The first token of an instruction tells its form. -/
theorem Instruction.ofKind?_peek (d : Instruction) (s : Stream) :
    Grammar.Form.ofKind? (s.push d.tokens).peek.kind = some d.form := by
  cases d <;> simp [Instruction.tokens, Assignment.tokens, Instruction.form, Grammar.Form.ofKind?]

theorem Instruction.tokens_ne_nil (d : Instruction) : d.tokens ≠ [] := by
  cases d <;> simp [Instruction.tokens]

end Derivation

namespace Phrase

open Pseudocode.Derivation Rule

/-! ### Phrases of instructions -/

/-- Instructions. They are complete in themselves. -/
def instruction : Phrase Instruction where
  tokens := Instruction.tokens
  ordered := Instruction.ordered
  stops _ _ := True

/-- Sequences. They go on if an instruction comes next. -/
def sequence : Phrase Sequence where
  tokens := Sequence.tokens
  ordered := Sequence.ordered
  stops _ kind := Grammar.Form.ofKind? kind = none

/-- Arms with a condition. They end with a sequence. -/
def guarded : Phrase Guarded where
  tokens := Guarded.tokens
  ordered := Guarded.ordered
  stops _ kind := Grammar.Form.ofKind? kind = none

/-- The lookahead of the repetition of arms. -/
def atSinonsi (kind : Kind) : Option Unit :=
  if kind = .keyword .sinonsi then some () else none

/-- Arms without a condition. -/
def otherwise : Phrase Otherwise where
  tokens := Otherwise.tokens
  ordered := Otherwise.ordered
  stops _ kind := Grammar.Form.ofKind? kind = none

/-- The arm without a condition, which may be absent. -/
def lastArm : Phrase (Option Otherwise) where
  tokens := Otherwise.tokens?
  ordered := Otherwise.ordered?
  stops
    | none, kind => kind ≠ .keyword .sinon
    | some _, kind => Grammar.Form.ofKind? kind = none

/-- The arms behind the first one. -/
def arms : Phrase (List Guarded × Option Otherwise) :=
  (guarded.star atSinonsi).seq lastArm

theorem repeats_instruction : instruction.Repeats Grammar.Form.ofKind? where
  tokens_ne_nil := Instruction.tokens_ne_nil
  starts_peek d s := ⟨d.form, d.ofKind?_peek s⟩
  seam _ _ _ := trivial
  starts_end := rfl

theorem repeats_guarded : guarded.Repeats atSinonsi where
  tokens_ne_nil := by
    rintro ⟨sinonsi, test, body⟩
    exact List.cons_ne_nil _ _
  starts_peek := by
    rintro ⟨sinonsi, test, body⟩ s
    exact ⟨(), if_pos (Word.kind_eq sinonsi)⟩
  seam := by
    rintro d ⟨sinonsi, test, body⟩ s
    change Grammar.Form.ofKind? sinonsi.token.kind = none
    rw [Word.kind_eq]
    rfl
  starts_end := rfl

/-! ### Sequences and arms -/

section Inner

variable {n : Nat} {self : Rule (Tree Symbol)}

/-- What the instructions inside an instruction are taken to be read by. -/
abbrev ReadsInstructions (n : Nat) (self : Rule (Tree Symbol)) : Prop :=
  instruction.ReadBy n self Instruction.tree fun d ↦ d.tree.trail ++ [.understood d.tree.name]

theorem readBy_sequenceOf (h : ReadsInstructions n self) :
    sequence.ReadBy n (Grammar.sequenceOf self) Sequence.tree fun d ↦ d.tree.trail := by
  have hothers := h.many repeats_instruction (fun _ ↦ self) fun _ _ _ _ ↦ rfl
  have : Nonempty (List Instruction) := ⟨[]⟩
  have hall := (h.both hothers (by simp) fun _ _ _ _ ↦ trivial).map
    fun x ↦ Tree.sequence (x.1 :: x.2)
  refine (hall.congr fun s _ ↦ by simp only [Grammar.sequenceOf, both_bind]).transport
    (fun x ↦ .mk x.1 x.2) ?_ ?_ ?_ ?_ ?_
  · rintro ⟨first, others⟩
    exact ⟨(first, others), rfl⟩
  · intro x
    exact congrArg (x.1.tokens ++ ·) (Instruction.tokensAll_eq_flatMap x.2)
  · intro x kind
    simp [sequence, seq, star, instruction]
  · intro x
    rw [Sequence.tree, Instruction.treeAll_eq_map]
  · intro x
    rw [Sequence.tree, Instruction.treeAll_eq_map, Tree.trail, Tree.trailAll_eq_flatMap,
      List.flatMap_cons, List.flatMap_map]

theorem readBy_guardedArm (h : ReadsInstructions n self) :
    guarded.ReadBy n (Grammar.guardedArm self) Guarded.arm fun d ↦ Tree.trailArm d.arm := by
  have hinner := (readBy_condition n).both (readBy_sequenceOf h) (by simp) fun _ _ _ _ ↦ trivial
  have hall := ((readBy_keyword .sinonsi n).both hinner (by simp) (terminal_before _)).map
    fun x ↦ Arm.guarded x.2.1 x.2.2
  refine (hall.congr fun s _ ↦ by simp only [Grammar.guardedArm, both_bind]).transport
    (fun x ↦ .mk x.1 x.2.1 x.2.2) ?_ (fun _ ↦ rfl) ?_ (fun _ ↦ rfl) ?_
  · rintro ⟨sinonsi, test, body⟩
    exact ⟨(sinonsi, test, body), rfl⟩
  · intro x kind
    simp [guarded, seq, terminal, enclosed, sequence]
  · intro x
    simp [Guarded.arm, Tree.trailArm]

theorem readBy_otherwise (h : ReadsInstructions n self) :
    otherwise.ReadBy n
      (do
        let x ← (keyword .sinon).both (Grammar.sequenceOf self)
        pure [.otherwise x.2])
      (fun d ↦ [d.arm]) fun d ↦ Tree.trailArms [d.arm] := by
  have hall := ((readBy_keyword .sinon n).both (readBy_sequenceOf h) (by simp)
    (terminal_before _)).map fun x ↦ [Arm.otherwise x.2]
  refine hall.transport (fun x ↦ .mk x.1 x.2) ?_ (fun _ ↦ rfl) ?_ (fun _ ↦ rfl) ?_
  · rintro ⟨sinon, body⟩
    exact ⟨(sinon, body), rfl⟩
  · intro x kind
    simp [otherwise, seq, terminal, sequence]
  · intro x
    simp [Otherwise.arm, Tree.trailArms]

/-- Whether there is an arm without a condition is told by the first token. -/
theorem readBy_lastArm (h : ReadsInstructions n self) :
    lastArm.ReadBy n (Grammar.lastArm self) Otherwise.arms
      fun d ↦ Tree.trailArms (Otherwise.arms d) := by
  refine .of_branches fun k ↦ ?_
  by_cases hk : k = .keyword .sinon
  · refine .form otherwise some _ (readBy_otherwise h) ?_ (fun _ ↦ rfl) (fun _ _ hstops ↦ hstops)
      (fun _ _ _ hstops ↦ hstops) ?_
    · rintro s - rfl
      have hkeyword : keyword .sinon s = advance s := expect_of_peek (by rw [hk]; rfl)
      rw [Grammar.lastArm, peek_bind, if_pos hk, both_bind]
      exact (bind_congr _ hkeyword).symm
    · rintro (_ | d) s hstops hpeek
      · exact absurd (hpeek.trans hk) hstops
      · exact ⟨d, rfl⟩
  · refine .form empty (fun _ ↦ none) (pure []) (readBy_pure _ _) ?_ (fun _ ↦ rfl)
      (fun _ _ _ ↦ trivial) ?_ ?_
    · rintro s - rfl
      rw [Grammar.lastArm, peek_bind, if_neg hk]
    · rintro _ s rfl _
      exact hk
    · rintro (_ | ⟨sinon, body⟩) s - hpeek
      · exact ⟨(), rfl⟩
      · have hword : sinon.token.kind = k := hpeek
        rw [Word.kind_eq] at hword
        exact absurd hword.symm hk

theorem readBy_furtherArms (h : ReadsInstructions n self) :
    arms.ReadBy n (Grammar.furtherArms self) (fun d ↦ Guarded.arms d.1 ++ Otherwise.arms d.2)
      fun d ↦ Tree.trailArms (Guarded.arms d.1 ++ Otherwise.arms d.2) := by
  have hguarded := (readBy_guardedArm h).many repeats_guarded
    (fun _ ↦ Grammar.guardedArm self) fun _ _ _ _ ↦ rfl
  have hseam : (guarded.star atSinonsi).Before lastArm := by
    rintro ds (_ | ⟨sinon, body⟩) s hne
    · exact absurd rfl hne
    · change (guarded.star atSinonsi).stops ds sinon.token.kind
      rw [Word.kind_eq]
      exact ⟨rfl, fun _ _ ↦ rfl⟩
  have hall := (hguarded.both (readBy_lastArm h) (by simp) hseam).map fun x ↦ x.1 ++ x.2
  refine (hall.congr fun s _ ↦ by simp only [Grammar.furtherArms, both_bind]; rfl).respell ?_ ?_
  · intro d
    rw [Guarded.arms_eq_map]
  · intro d
    simp [Guarded.arms_eq_map, Tree.trailArms_eq_flatMap, List.flatMap_map]

/-- Where an instruction does not go on, the arms of a choice may follow or end. -/
theorem sequence_before_arms : sequence.Before arms := by
  rintro d ⟨_ | ⟨⟨sinonsi, test, body⟩, others⟩, _ | ⟨sinon, body'⟩⟩ s hne
  · exact absurd rfl hne
  · change Grammar.Form.ofKind? sinon.token.kind = none
    rw [Word.kind_eq]
    rfl
  · change Grammar.Form.ofKind? sinonsi.token.kind = none
    rw [Word.kind_eq]
    rfl
  · change Grammar.Form.ofKind? sinonsi.token.kind = none
    rw [Word.kind_eq]
    rfl

/-! ### The forms of instructions -/

/-- A form of instructions that the first token tells is read if its own rule reads it. -/
theorem branch_of_formRule {E : Type} {form : Grammar.Form} {Q : Phrase E} {k : Kind}
    {r : Rule (Tree Symbol)} {value : E → Tree Symbol} {trail : E → List Event}
    (hk : Grammar.Form.ofKind? k = some form) (reads : Q.ReadBy n r value trail)
    (rule_eq : Grammar.formRule self form = r) (g : E → Instruction)
    (tree_eq : ∀ e, (g e).tree = value e) (trail_eq : ∀ e, (g e).tree.trail = trail e)
    (tokens_eq : ∀ e, (g e).tokens = Q.tokens e) (stops : ∀ e kind, Q.stops e kind)
    (covers : ∀ d : Instruction, d.form = form → ∃ e, g e = d) :
    instruction.Branch n (Grammar.bareInstruction self) Instruction.tree (fun d ↦ d.tree.trail)
      k := by
  refine .form Q g _ (reads.respell tree_eq trail_eq) ?_ tokens_eq (fun e kind _ ↦ stops e kind)
    (fun _ _ _ _ ↦ trivial) fun d s _ hpeek ↦ covers d ?_
  · rintro s - rfl
    rw [Grammar.bareInstruction, peek_bind, hk, ← rule_eq]
  · have hform := d.ofKind?_peek s
    rw [show (s.push d.tokens).peek.kind = k from hpeek, hk] at hform
    exact (Option.some.inj hform).symm

theorem branch_assignment {k : Kind} (hk : Grammar.Form.ofKind? k = some .assignment) :
    instruction.Branch n (Grammar.bareInstruction self) Instruction.tree (fun d ↦ d.tree.trail)
      k := by
  have hread := ((readBy_assignment n).both (readBy_mark .semicolon n) (by simp)
    (before_mark fun _ ↦ rfl)).map fun x ↦ Tree.assignment x.1.1 x.1.2
  refine branch_of_formRule hk hread (by simp only [Grammar.formRule, both_bind])
    (fun x ↦ .assignment x.1 x.2) (fun _ ↦ rfl) ?_ (fun _ ↦ rfl) ?_ ?_
  · intro x
    simp [Instruction.tree, Tree.trail]
  · exact fun _ _ ↦ ⟨trivial, fun h ↦ absurd h (List.cons_ne_nil _ _)⟩
  · intro d hd
    cases d with
    | assignment a semicolon => exact ⟨(a, semicolon), rfl⟩
    | _ => cases hd

/-- A condition with its instructions and the arms behind it, which may be none. -/
def ofArms (si : Word .si) (test : Condition) (body : Sequence) (finsi : Word .finsi) :
    List Guarded × Option Otherwise → Instruction
  | ([], none) => .ifThen si test body finsi
  | ([], some last) => .choice si test body (.otherwise last finsi)
  | (first :: others, last) => .choice si test body (.guarded first others last finsi)

theorem tokens_ofArms (si : Word .si) (test : Condition) (body : Sequence) (finsi : Word .finsi)
    (d : List Guarded × Option Otherwise) : (ofArms si test body finsi d).tokens =
      si.token :: (test.tokens ++ (body.tokens ++ (arms.tokens d ++ [finsi.token]))) := by
  have harms : arms.tokens d = Guarded.tokensAll d.1 ++ Otherwise.tokens? d.2 :=
    congrArg (· ++ _) (Guarded.tokensAll_eq_flatMap d.1).symm
  rw [harms]
  obtain ⟨_ | ⟨first, others⟩, _ | last⟩ := d <;>
    simp [ofArms, Instruction.tokens, Tail.tokens, Guarded.tokensAll, Otherwise.tokens?]

theorem branch_ifThen {k : Kind} (h : ReadsInstructions n self)
    (hk : Grammar.Form.ofKind? k = some .ifThen) :
    instruction.Branch (n + 1) (Grammar.bareInstruction self) Instruction.tree
      (fun d ↦ d.tree.trail) k := by
  have hend : arms.Before (terminal (Kind.ofClass? (.keyword .finsi))) := by
    refine before_keyword fun d ↦ ⟨?_, fun _ ↦ ⟨rfl, fun _ _ ↦ rfl⟩⟩
    cases d.2 with
    | none => exact fun hkind ↦ nomatch hkind
    | some last => rfl
  have harms := (readBy_furtherArms h).both (readBy_keyword .finsi n) (by simp) hend
  have hbody := (readBy_sequenceOf h).both harms (by simp)
    (sequence_before_arms.seq (before_keyword fun _ ↦ rfl))
  have htest := (readBy_condition n).both hbody (by simp) fun _ _ _ _ ↦ trivial
  have hread := ((readBy_keyword .si (n + 1)).both htest (fun _ ↦ Nat.le_refl _)
    (terminal_before _)).map fun x ↦ if x.2.2.2.1.isEmpty then Tree.ifThen x.2.1 x.2.2.1
      else .choice (.guarded x.2.1 x.2.2.1 :: x.2.2.2.1)
  refine branch_of_formRule hk hread (by simp only [Grammar.formRule, Grammar.ifThen, both_bind])
    (fun x ↦ ofArms x.1 x.2.1 x.2.2.1 x.2.2.2.2 x.2.2.2.1) ?_ ?_ ?_ ?_ ?_
  · rintro ⟨si, test, body, ⟨_ | ⟨first, others⟩, _ | last⟩, finsi⟩ <;> rfl
  · rintro ⟨si, test, body, ⟨_ | ⟨first, others⟩, _ | last⟩, finsi⟩ <;>
      simp [ofArms, Instruction.tree, Tree.trail, Tree.trailArms, Tail.arms, Guarded.arms,
        Otherwise.arms]
  · intro x
    exact tokens_ofArms ..
  · intro e kind
    simp [seq, terminal]
  · intro d hd
    cases d with
    | ifThen si test body finsi => exact ⟨(si, test, body, ([], none), finsi), rfl⟩
    | choice si test body tail =>
      cases tail with
      | guarded first others last finsi =>
        exact ⟨(si, test, body, (first :: others, last), finsi), rfl⟩
      | otherwise last finsi => exact ⟨(si, test, body, ([], some last), finsi), rfl⟩
    | _ => cases hd

theorem branch_repeatUntil {k : Kind} (h : ReadsInstructions n self)
    (hk : Grammar.Form.ofKind? k = some .repeatUntil) :
    instruction.Branch (n + 1) (Grammar.bareInstruction self) Instruction.tree
      (fun d ↦ d.tree.trail) k := by
  have htest := (readBy_keyword .jusqua n).both (readBy_condition n) (by simp) (terminal_before _)
  have hbody := (readBy_sequenceOf h).both htest (by simp)
    ((before_keyword fun _ ↦ rfl).seq_terminal _)
  have hread := ((readBy_keyword .repeter (n + 1)).both hbody (fun _ ↦ Nat.le_refl _)
    (terminal_before _)).map fun x ↦ Tree.repeatUntil x.2.1 x.2.2.2
  refine branch_of_formRule hk hread
    (by simp only [Grammar.formRule, Grammar.repeatUntil, both_bind])
    (fun x ↦ .repeatUntil x.1 x.2.1 x.2.2.1 x.2.2.2) (fun _ ↦ rfl) ?_ (fun _ ↦ rfl) ?_ ?_
  · intro x
    simp [Instruction.tree, Tree.trail]
  · intro e kind
    simp [seq, terminal, enclosed]
  · intro d hd
    cases d with
    | repeatUntil repeter body jusqua test => exact ⟨(repeter, body, jusqua, test), rfl⟩
    | _ => cases hd

theorem branch_whileDo {k : Kind} (h : ReadsInstructions n self)
    (hk : Grammar.Form.ofKind? k = some .whileDo) :
    instruction.Branch (n + 1) (Grammar.bareInstruction self) Instruction.tree
      (fun d ↦ d.tree.trail) k := by
  have hbody := (readBy_sequenceOf h).both (readBy_keyword .fintantque n) (by simp)
    (before_keyword fun _ ↦ rfl)
  have htest := (readBy_condition n).both hbody (by simp) fun _ _ _ _ ↦ trivial
  have hread := ((readBy_keyword .tantque (n + 1)).both htest (fun _ ↦ Nat.le_refl _)
    (terminal_before _)).map fun x ↦ Tree.whileDo x.2.1 x.2.2.1
  refine branch_of_formRule hk hread (by simp only [Grammar.formRule, Grammar.whileDo, both_bind])
    (fun x ↦ .whileDo x.1 x.2.1 x.2.2.1 x.2.2.2) (fun _ ↦ rfl) ?_ (fun _ ↦ rfl) ?_ ?_
  · intro x
    simp [Instruction.tree, Tree.trail]
  · intro e kind
    simp [seq, terminal]
  · intro d hd
    cases d with
    | whileDo tantque test body fintantque => exact ⟨(tantque, test, body, fintantque), rfl⟩
    | _ => cases hd

/-- A clause may stand before the mark that closes its place. -/
theorem clause_before (closing : Punctuator)
    (hclosing : Operator.ofKind? (.punctuator closing) = none) :
    (clause closing).Before (terminal (Kind.ofClass? (.punctuator closing))) := by
  refine before_mark fun d ↦ ?_
  cases d with
  | none => rfl
  | some a => exact hclosing

theorem branch_forLoop {k : Kind} (h : ReadsInstructions n self)
    (hk : Grammar.Form.ofKind? k = some .forLoop) :
    instruction.Branch (n + 1) (Grammar.bareInstruction self) Instruction.tree
      (fun d ↦ d.tree.trail) k := by
  -- from the last token back to the first
  have hbody := (readBy_sequenceOf h).both (readBy_keyword .finpour n) (by simp)
    (before_keyword fun _ ↦ rfl)
  have hclosing := (readBy_mark .rightParenthesis n).both hbody (by simp) (terminal_before _)
  have hstep := (readBy_clauseBefore .rightParenthesis n).both hclosing (by simp)
    ((clause_before _ rfl).seq_terminal _)
  have hsemicolon := (readBy_mark .semicolon n).both hstep (by simp) (terminal_before _)
  have htest := (readBy_expression n).both hsemicolon (by simp)
    ((before_mark fun _ ↦ rfl).seq_terminal _)
  have hsemicolon' := (readBy_mark .semicolon n).both htest (by simp) (terminal_before _)
  have hinit := (readBy_clauseBefore .semicolon n).both hsemicolon' (by simp)
    ((clause_before _ rfl).seq_terminal _)
  have hopening := (readBy_mark .leftParenthesis n).both hinit (by simp) (terminal_before _)
  have hread := ((readBy_keyword .pour (n + 1)).both hopening (fun _ ↦ Nat.le_refl _)
    (terminal_before _)).map fun x ↦
      Tree.forLoop x.2.2.1 x.2.2.2.2.1 x.2.2.2.2.2.2.1 x.2.2.2.2.2.2.2.2.1
  refine branch_of_formRule hk hread (by simp only [Grammar.formRule, Grammar.forLoop, both_bind])
    (fun x ↦ .forLoop x.1 x.2.1 x.2.2.1 x.2.2.2.1 x.2.2.2.2.1 x.2.2.2.2.2.1 x.2.2.2.2.2.2.1
      x.2.2.2.2.2.2.2.1 x.2.2.2.2.2.2.2.2.1 x.2.2.2.2.2.2.2.2.2) (fun _ ↦ rfl) ?_ (fun _ ↦ rfl)
      ?_ ?_
  · intro x
    simp [Instruction.tree, Tree.trail]
  · intro e kind
    simp [seq, terminal]
  · intro d hd
    cases d with
    | forLoop pour opening init semicolon test semicolon' step closing body finpour =>
      exact ⟨(pour, opening, init, semicolon, test, semicolon', step, closing, body, finpour), rfl⟩
    | _ => cases hd

theorem branch_write {k : Kind} (hk : Grammar.Form.ofKind? k = some .write) :
    instruction.Branch n (Grammar.bareInstruction self) Instruction.tree (fun d ↦ d.tree.trail)
      k := by
  have hlist := (readBy_item n).list fun d ↦ by cases d <;> trivial
  have hitems := (hlist.parenthesized (listed_stops (fun d ↦ by cases d <;> trivial)
    (by simp))).mono (Nat.le_succ n)
  have hread := ((readBy_keyword .ecrire n).both hitems (by simp) (terminal_before _)).map
    fun x ↦ Tree.write x.2
  refine branch_of_formRule hk hread (by simp only [Grammar.formRule, both_bind])
    (fun x ↦ .write x.1 x.2) (fun _ ↦ rfl) ?_ (fun _ ↦ rfl) ?_ ?_
  · intro x
    simp [Instruction.tree, Tree.trail, Tree.trailItems_eq_flatMap, List.flatMap_map]
  · intro e kind
    simp [seq, terminal, enclosed]
  · intro d hd
    cases d with
    | write ecrire items => exact ⟨(ecrire, items), rfl⟩
    | _ => cases hd

theorem branch_read {k : Kind} (hk : Grammar.Form.ofKind? k = some .read) :
    instruction.Branch n (Grammar.bareInstruction self) Instruction.tree (fun d ↦ d.tree.trail)
      k := by
  have hlist := (readBy_variableName n).list fun _ ↦ trivial
  have hcells := (hlist.parenthesized (listed_stops (fun _ ↦ trivial) (by simp))).mono
    (Nat.le_succ n)
  have hread := ((readBy_keyword .lire n).both hcells (by simp) (terminal_before _)).map
    fun x ↦ Tree.read x.2
  refine branch_of_formRule hk hread (by simp only [Grammar.formRule, both_bind])
    (fun x ↦ .read x.1 x.2) (fun _ ↦ rfl) ?_ (fun _ ↦ rfl) ?_ ?_
  · intro x
    rw [Instruction.tree, Tree.trail, List.map_map, List.map_eq_flatMap, List.nil_append]
    rfl
  · intro e kind
    simp [seq, terminal, enclosed]
  · intro d hd
    cases d with
    | read lire cells => exact ⟨(lire, cells), rfl⟩
    | _ => cases hd

/-- Instructions of one more token: all their parts are shorter. -/
theorem readBy_bareInstruction (h : ReadsInstructions n self) :
    instruction.ReadBy (n + 1) (Grammar.bareInstruction self) Instruction.tree
      fun d ↦ d.tree.trail := by
  refine .of_branches fun k ↦ ?_
  cases hk : Grammar.Form.ofKind? k with
  | some form =>
    cases form with
    | assignment => exact branch_assignment hk
    | ifThen => exact branch_ifThen h hk
    | repeatUntil => exact branch_repeatUntil h hk
    | whileDo => exact branch_whileDo h hk
    | forLoop => exact branch_forLoop h hk
    | write => exact branch_write hk
    | read => exact branch_read hk
  | none =>
    refine .dead .instruction (by simp) ?_ ?_
    · rintro s - rfl
      rw [Grammar.bareInstruction, peek_bind, hk]
    · intro d s _ hpeek
      have hform := d.ofKind?_peek s
      rw [show (s.push d.tokens).peek.kind = k from hpeek, hk] at hform
      cases hform

end Inner

end Phrase

/-! ### Instructions without recovery -/

namespace Grammar

open Rule

/-- One instruction that is given up as soon as a token is wrong, when `self` reads the
instructions inside it. -/
def strictRule (self : Rule (Tree Symbol)) : Rule (Tree Symbol) := do
  let tree ← bareInstruction self
  leave (.understood tree.name)
  pure tree

/-- One instruction without recovery. -/
def strictInstruction : Rule (Tree Symbol) :=
  nest (fail .instruction) strictRule

theorem guarded_strictRule : Guarded strictRule where
  forward hp := (forward_bareInstruction hp).bind fun _ ↦ (forward_leave _).bind fun _ ↦
    forward_pure _
  congr hp h := bind_congr _ (bareInstruction_congr hp h)

/-- An instruction without recovery is what the grammar writes down. -/
theorem strictInstruction_eq : strictInstruction = strictRule strictInstruction :=
  nest_eq (forward_fail _) guarded_strictRule

end Grammar

namespace Phrase

theorem readBy_strictInstruction (n : Nat) : ReadsInstructions n Grammar.strictInstruction := by
  induction n with
  | zero => exact readBy_zero ..
  | succ n ih =>
    rw [Grammar.strictInstruction_eq]
    exact (readBy_bareInstruction ih).tail (fun _ _ ↦ rfl) (by simp [Event.error?])

end Phrase

end Pseudocode
