import Pseudocode.Grammar.Progress
import Pseudocode.Proofs.Derivation.Basic

/-!
# Phrases and the rules that read them

A phrase is a kind of derivation: the tokens of each derivation, and the tokens before which a
reader stops behind them. A rule reads a phrase if one token of lookahead is always enough for it:
it finds every derivation that the stream starts with and stops behind it, and where it fails, the
token it stops at cannot be put right by any derivation.

All of this composes. One phrase behind the other, repetition, and a choice by the first token are
read by the corresponding combinations of rules, as long as what follows a phrase never looks like
a continuation of it. Statements are bounded by a number of tokens, so that rules that refer to
themselves can be treated by induction.

## Main definitions

* `Stream.push`: tokens in front of a stream.
* `Phrase`: derivations with their tokens and with where they stop.
* `Phrase.Blame`: a token at which no derivation can go on.
* `Phrase.ReadBy`: a rule that reads a phrase.
* `Phrase.seq`, `Phrase.star`, `Phrase.Branch`: one phrase behind the other, repetition, choice.

## Main results

* `Phrase.ReadBy.bind`, `Phrase.ReadBy.many`, `Phrase.ReadBy.of_branches`: the combinations of
  rules read the combinations of phrases.
-/

namespace Pseudocode

open Token (Kind Category)

/-! ### Tokens in front of a stream -/

namespace Stream

/-- Puts tokens in front of a stream. -/
def push (s : Stream) (ts : List Token) : Stream :=
  { s with ahead := ts ++ s.ahead }

/-- The tokens ahead and the end of input behind them. -/
def all (s : Stream) : List Token :=
  s.ahead ++ [s.close]

/-- No token of the stream runs backwards. -/
def Ordered (s : Stream) : Prop :=
  ∀ t ∈ s.all, t.Ordered

/-- The tokens of a list, with the end of input at the origin. -/
def ofList (ts : List Token) : Stream :=
  { ahead := ts, endStart := {}, endStop := {} }

@[simp]
theorem push_nil (s : Stream) : s.push [] = s := rfl

theorem push_append (s : Stream) (ts us : List Token) :
    s.push (ts ++ us) = (s.push us).push ts := by
  simp [push]

@[simp]
theorem peek_push_cons (s : Stream) (t : Token) (ts : List Token) :
    (s.push (t :: ts)).peek = t := by
  simp [push, peek]

@[simp]
theorem length_push (s : Stream) (ts : List Token) :
    (s.push ts).length = ts.length + s.length := by
  simp [push, length]

@[simp]
theorem all_push (s : Stream) (ts : List Token) : (s.push ts).all = ts ++ s.all := by
  simp [push, all, close]

theorem head?_all (s : Stream) : s.all.head? = some s.peek := by
  unfold all peek
  cases s.ahead <;> rfl

theorem peek_mem_all (s : Stream) : s.peek ∈ s.all :=
  List.mem_of_head? s.head?_all

theorem Ordered.peek {s : Stream} (hs : s.Ordered) : s.peek.Ordered :=
  hs _ s.peek_mem_all

theorem ordered_push_iff {s : Stream} {ts : List Token} :
    (s.push ts).Ordered ↔ (∀ t ∈ ts, t.Ordered) ∧ s.Ordered := by
  simp [Ordered, or_imp, forall_and]

/-- What is not at its end starts with its next token. -/
theorem eq_push_peek {s : Stream} (h : s.peek.kind ≠ .endOfInput) :
    s = s.advance.push [s.peek] := by
  rcases s with ⟨_ | ⟨t, ts⟩, l, l'⟩
  · exact absurd rfl h
  · rfl

theorem peek_ofList {ts : List Token} {t : Token} (h : ts.head? = some t) :
    (ofList ts).peek = t := by
  cases ts with
  | nil => cases h
  | cons u ts => exact Option.some.inj h

theorem ordered_ofList {ts : List Token} (h : ∀ t ∈ ts, t.Ordered) : (ofList ts).Ordered := by
  intro t ht
  rcases List.mem_append.1 ht with ht | ht
  · exact h t ht
  · rw [List.mem_singleton.1 ht]
    exact Nat.le_refl _

/-- Whatever starts with `w` and then the next token of `s` starts as `s` with `w` in front. -/
theorem head?_append_peek (s : Stream) (w more : List Token) :
    (w ++ [s.peek] ++ more).head? = some (s.push w).peek := by
  cases w with
  | nil => simp
  | cons t w => simp

end Stream

/-! ### Phrases -/

/-- The error is about the token `t`. -/
def SyntaxError.At (e : SyntaxError) (t : Token) : Prop :=
  t.span? = some e.span ∧ e.found = t.kind.text

/-- Reading ends with the error `e` and leaves `rest`. -/
def Outcome.FailsAt {α : Type} (o : Outcome α) (e : SyntaxError) (rest : Stream) : Prop :=
  o.result = .error (.syntactic e) ∧ o.rest = rest

/-- What would follow a rule that fails is not reached. -/
theorem Outcome.FailsAt.bind {α β : Type} {r : Rule α} {s rest : Stream} {e : SyntaxError}
    (h : (r s).FailsAt e rest) (f : α → Rule β) : ((r >>= f) s).FailsAt e rest := by
  rw [Rule.bind_of_error f h.1]
  exact ⟨rfl, h.2⟩

/-- Derivations, their tokens, and the kinds of tokens before which a reader stops behind them. -/
structure Phrase (D : Type) where
  /-- The tokens of a derivation. -/
  tokens : D → List Token
  /-- The tokens do not run backwards. -/
  ordered : ∀ d, ∀ t ∈ tokens d, t.Ordered
  /-- A reader that has read the derivation stops before a token of this kind. -/
  stops : D → Kind → Prop

namespace Phrase

variable {D E : Type} {α β : Type}

/-- Behind the tokens `w`, the token `t` is wrong and another one is wanted: the tokens so far
begin a derivation, they still do with a token of the class that is wanted, and no derivation goes
on with `t`, whatever follows it. Only derivations of fewer than `n` tokens are considered. -/
structure Blame (P : Phrase D) (n : Nat) (w : List Token) (t : Token) (wanted : Expectation) :
    Prop where
  /-- The tokens so far begin a derivation. -/
  viable : ∃ d, w <+: P.tokens d
  /-- So they do with a token of the class that is wanted. -/
  viable_wanted : ∀ c, wanted = .token c →
    ∃ u : Token, u.kind.category = c ∧ ∃ d, w ++ [u] <+: P.tokens d
  /-- No derivation goes on with `t`. -/
  excluded : ∀ (d : D) (s : Stream), s.Ordered → (P.tokens d).length < n → P.stops d s.peek.kind →
    ¬ w ++ [t] <+: P.tokens d ++ s.all

/-- The stream starts with the derivation `d`, and a reader stops before the rest. -/
def Begins (P : Phrase D) (s : Stream) (d : D) (rest : Stream) : Prop :=
  s = rest.push (P.tokens d) ∧ P.stops d rest.peek.kind

/-- Reading the stream ends with an error at a token that is to blame. -/
def Rejects (P : Phrase D) (n : Nat) (s : Stream) (o : Outcome α) : Prop :=
  ∃ (w : List Token) (rest : Stream) (e : SyntaxError), s = rest.push w ∧ o.FailsAt e rest ∧
    e.At rest.peek ∧ P.Blame n w rest.peek e.expectation

/-- The rule `r` reads the phrase `P`, with `value` as its result and `trail` as its trail, as far
as fewer than `n` tokens are concerned. -/
structure ReadBy (P : Phrase D) (n : Nat) (r : Rule α) (value : D → α)
    (trail : D → List Event) : Prop where
  /-- The rule reads the tokens of every derivation. -/
  complete : ∀ (d : D) (s : Stream), s.Ordered → (P.tokens d).length < n →
    P.stops d s.peek.kind →
      r (s.push (P.tokens d)) = { result := .ok (value d), rest := s, events := trail d }
  /-- No two derivations have the same tokens. -/
  unique : ∀ (d d' : D) (s : Stream), s.Ordered → (P.tokens d).length < n →
    P.stops d s.peek.kind → P.stops d' s.peek.kind → P.tokens d = P.tokens d' → d = d'
  /-- The stream starts with a derivation, or the rule fails at a token that is to blame. -/
  outcome : ∀ s : Stream, s.Ordered → s.length < n →
    (∃ d rest, P.Begins s d rest) ∨ P.Rejects n s (r s)
  /-- The rule notes no errors. -/
  quiet : ∀ s : Stream, s.Ordered → s.length < n → ∀ x ∈ (r s).events, x.error? = none

/-- One phrase behind the other. If the second one has no tokens, it is the first that stops. -/
def seq (P : Phrase D) (Q : Phrase E) : Phrase (D × E) where
  tokens x := P.tokens x.1 ++ Q.tokens x.2
  ordered x t ht := (List.mem_append.1 ht).elim (P.ordered x.1 t) (Q.ordered x.2 t)
  stops x kind := Q.stops x.2 kind ∧ (Q.tokens x.2 = [] → P.stops x.1 kind)

/-- A reader of `P` stops where `Q` begins. -/
def Before (P : Phrase D) (Q : Phrase E) : Prop :=
  ∀ (d : D) (e : E) (s : Stream), Q.tokens e ≠ [] → P.stops d (s.push (Q.tokens e)).peek.kind

/-- A reader of the first part stops before the second. -/
theorem Before.stops {P : Phrase D} {Q : Phrase E} (h : P.Before Q) {d : D} {e : E} {s : Stream}
    (hs : (P.seq Q).stops (d, e) s.peek.kind) : P.stops d (s.push (Q.tokens e)).peek.kind := by
  by_cases he : Q.tokens e = []
  · rw [he, Stream.push_nil]
    exact hs.2 he
  · exact h d e s he

theorem Before.seq {F : Type} {P : Phrase D} {Q : Phrase E} {R : Phrase F} (hQ : P.Before Q)
    (hR : P.Before R) : P.Before (Q.seq R) := by
  rintro d ⟨e, f⟩ s hne
  change P.stops d (s.push (Q.tokens e ++ R.tokens f)).peek.kind
  change Q.tokens e ++ R.tokens f ≠ [] at hne
  rw [Stream.push_append]
  by_cases he : Q.tokens e = []
  · rw [he, List.nil_append] at hne
    rw [he, Stream.push_nil]
    exact hR d f s hne
  · exact hQ d e _ he

/-- Any number of phrases one after the other, as long as `starts` has an answer. -/
def star (P : Phrase D) (starts : Kind → Option β) : Phrase (List D) where
  tokens ds := ds.flatMap P.tokens
  ordered ds t ht := by
    obtain ⟨d, -, htd⟩ := List.mem_flatMap.1 ht
    exact P.ordered d t htd
  stops ds kind := starts kind = none ∧ ∀ d, ds.getLast? = some d → P.stops d kind

theorem ordered_push {P : Phrase D} {s : Stream} (hs : s.Ordered) (d : D) :
    (s.push (P.tokens d)).Ordered :=
  Stream.ordered_push_iff.2 ⟨P.ordered d, hs⟩

namespace ReadBy

variable {P : Phrase D} {Q : Phrase E} {r : Rule α} {f : α → Rule β} {value : D → α}
  {trail : D → List Event} {m n : Nat}

/-- What a rule does on a stream that starts with a derivation. -/
theorem eq_of_begins (h : P.ReadBy n r value trail) {s rest : Stream} {d : D} (hs : s.Ordered)
    (hlength : s.length < n) (hd : P.Begins s d rest) :
    rest.Ordered ∧ (P.tokens d).length + rest.length = s.length ∧
      r s = { result := .ok (value d), rest, events := trail d } := by
  obtain ⟨rfl, hstops⟩ := hd
  have hrest := (Stream.ordered_push_iff.1 hs).2
  rw [Stream.length_push] at hlength ⊢
  exact ⟨hrest, rfl, h.complete d rest hrest (by omega) hstops⟩

/-- One token of lookahead settles where a derivation ends: two derivations at the start of the
same tokens leave the same rest. -/
theorem rest_eq (h : P.ReadBy n r value trail) {d d' : D} {X : List Token} {s : Stream}
    (hd : (P.tokens d).length < n) (hd' : (P.tokens d').length < n) {u : Token}
    (hX : X.head? = some u) (hu : P.stops d u.kind) (hs : s.Ordered)
    (hstops : P.stops d' s.peek.kind) (heq : P.tokens d ++ X = P.tokens d' ++ s.all) :
    X = s.all := by
  have hall : ∀ t ∈ P.tokens d' ++ s.all, t.Ordered := by
    intro t ht
    exact (List.mem_append.1 ht).elim (P.ordered d' t) (hs t)
  have hXo : (Stream.ofList X).Ordered :=
    Stream.ordered_ofList fun t ht ↦ hall t (heq ▸ List.mem_append_right _ ht)
  have hall' : (Stream.ofList s.all).Ordered :=
    Stream.ordered_ofList fun t ht ↦ hall t (List.mem_append_right _ ht)
  have h₁ := h.complete d (Stream.ofList X) hXo hd (by rwa [Stream.peek_ofList hX])
  have h₂ := h.complete d' (Stream.ofList s.all) hall' hd'
    (by rwa [Stream.peek_ofList s.head?_all])
  have hpush : (Stream.ofList X).push (P.tokens d) = (Stream.ofList s.all).push (P.tokens d') := by
    simp only [Stream.push, Stream.ofList, heq]
  rw [hpush, h₂] at h₁
  exact (congrArg (fun o : Outcome α ↦ o.rest.ahead) h₁).symm

theorem mono (h : P.ReadBy n r value trail) (hmn : m ≤ n) : P.ReadBy m r value trail where
  complete d s hs hlength := h.complete d s hs (by omega)
  unique d d' s hs hlength := h.unique d d' s hs (by omega)
  outcome s hs hlength := by
    rcases h.outcome s hs (by omega) with hd | ⟨w, rest, e, hw, he, hat, hblame⟩
    · exact .inl hd
    · exact .inr ⟨w, rest, e, hw, he, hat, hblame.viable, hblame.viable_wanted,
        fun d s hs hlength ↦ hblame.excluded d s hs (by omega)⟩
  quiet s hs hlength := h.quiet s hs (by omega)

/-! ### Steps without tokens -/

theorem congr {r' : Rule α} (h : P.ReadBy n r value trail)
    (heq : ∀ s, s.Ordered → r' s = r s) : P.ReadBy n r' value trail where
  complete d s hs hlength hstops := by
    rw [heq _ (ordered_push hs d)]
    exact h.complete d s hs hlength hstops
  unique := h.unique
  outcome s hs hlength := by
    rw [heq s hs]
    exact h.outcome s hs hlength
  quiet s hs hlength := by
    rw [heq s hs]
    exact h.quiet s hs hlength

/-- The same derivations under other names. -/
theorem transport {P' : Phrase E} {value' : E → α} {trail' : E → List Event}
    (h : P.ReadBy n r value trail) (g : D → E) (hsurjective : Function.Surjective g)
    (htokens : ∀ d, P'.tokens (g d) = P.tokens d) (hstops : ∀ d k, P'.stops (g d) k ↔ P.stops d k)
    (hvalue : ∀ d, value' (g d) = value d) (htrail : ∀ d, trail' (g d) = trail d) :
    P'.ReadBy n r value' trail' where
  complete e s hs hlength he := by
    obtain ⟨d, rfl⟩ := hsurjective e
    rw [htokens] at hlength ⊢
    rw [hvalue, htrail]
    exact h.complete d s hs hlength ((hstops d _).1 he)
  unique e e' s hs hlength he he' heq := by
    obtain ⟨d, rfl⟩ := hsurjective e
    obtain ⟨d', rfl⟩ := hsurjective e'
    rw [htokens] at hlength heq
    rw [htokens] at heq
    exact congrArg g (h.unique d d' s hs hlength ((hstops d _).1 he) ((hstops d' _).1 he') heq)
  outcome s hs hlength := by
    rcases h.outcome s hs hlength with ⟨d, rest, hd, hstop⟩ | ⟨w, rest, e, hw, he, hat, hblame⟩
    · exact .inl ⟨g d, rest, by rw [htokens, hd], (hstops d _).2 hstop⟩
    · refine .inr ⟨w, rest, e, hw, he, hat, ?_, ?_, ?_⟩
      · obtain ⟨d, hd⟩ := hblame.viable
        exact ⟨g d, by rwa [htokens]⟩
      · intro c hc
        obtain ⟨u, hu, d, hd⟩ := hblame.viable_wanted c hc
        exact ⟨u, hu, g d, by rwa [htokens]⟩
      · intro e s hs hlength he
        obtain ⟨d, rfl⟩ := hsurjective e
        rw [htokens] at hlength ⊢
        exact hblame.excluded d s hs hlength ((hstops d _).1 he)
  quiet := h.quiet

/-- Results and trails may be written in another way. -/
theorem respell {value' : D → α} {trail' : D → List Event} (h : P.ReadBy n r value trail)
    (hvalue : ∀ d, value' d = value d) (htrail : ∀ d, trail' d = trail d) :
    P.ReadBy n r value' trail' := by
  rwa [funext hvalue, funext htrail]

/-- A rule may be followed by steps that take no token. -/
theorem tail {value' : D → β} {after : D → List Event} (h : P.ReadBy n r value trail)
    (hf : ∀ d s, f (value d) s = { result := .ok (value' d), rest := s, events := after d })
    (hquiet : ∀ d, ∀ x ∈ after d, x.error? = none) :
    P.ReadBy n (r >>= f) value' fun d ↦ trail d ++ after d where
  complete d s hs hlength hstops := by
    have hr := h.complete d s hs hlength hstops
    rw [Rule.bind_of_ok f (congrArg Outcome.result hr), hr, hf]
  unique := h.unique
  outcome s hs hlength := by
    rcases h.outcome s hs hlength with hd | ⟨w, rest, e, hw, he, hat, hblame⟩
    · exact .inl hd
    · exact .inr ⟨w, rest, e, hw, he.bind f, hat, hblame⟩
  quiet s hs hlength x hx := by
    rcases h.outcome s hs hlength with ⟨d, rest, hd⟩ | ⟨w, rest, e, hw, he, hat, hblame⟩
    · obtain ⟨-, -, hr⟩ := h.eq_of_begins hs hlength hd
      rw [Rule.bind_of_ok f (congrArg Outcome.result hr), hr, hf] at hx
      rcases List.mem_append.1 hx with hx | hx
      · exact h.quiet s hs hlength x (by rwa [hr])
      · exact hquiet d x hx
    · rw [Rule.bind_of_error f he.1] at hx
      exact h.quiet s hs hlength x hx

/-- The result of a rule may be changed. -/
theorem map (h : P.ReadBy n r value trail) (g : α → β) :
    P.ReadBy n (r >>= fun a ↦ pure (g a)) (fun d ↦ g (value d)) trail := by
  have htail : P.ReadBy n (r >>= fun a ↦ pure (g a)) (fun d ↦ g (value d))
      fun d ↦ trail d ++ [] := h.tail (fun _ _ ↦ rfl) (by simp)
  simpa using htail

/-- Steps that take no token may stand in front of a rule. -/
theorem lead {value : D → β} {a : α} {before : List Event}
    (hr : ∀ s, r s = { result := .ok a, rest := s, events := before })
    (hquiet : ∀ x ∈ before, x.error? = none) (h : P.ReadBy n (f a) value trail) :
    P.ReadBy n (r >>= f) value fun d ↦ before ++ trail d := by
  have heq (s : Stream) : (r >>= f) s =
      { result := (f a s).result, rest := (f a s).rest, events := before ++ (f a s).events } := by
    rw [Rule.bind_of_ok f (congrArg Outcome.result (hr s)), hr]
  refine ⟨?_, h.unique, ?_, ?_⟩
  · intro d s hs hlength hstops
    rw [heq, h.complete d s hs hlength hstops]
  · intro s hs hlength
    rw [heq]
    exact h.outcome s hs hlength
  · intro s hs hlength x hx
    rw [heq] at hx
    rcases List.mem_append.1 hx with hx | hx
    · exact hquiet x hx
    · exact h.quiet s hs hlength x hx

end ReadBy

end Phrase

end Pseudocode
