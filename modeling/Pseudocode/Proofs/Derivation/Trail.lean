import Pseudocode.Grammar.Program

/-!
# The trail of a tree

The trail that a reader leaves over a program without errors can be told from the tree alone. Going
through the tree from left to right as it was written, each symbol is met where it stands, and each
instruction is understood behind everything inside it.

## Main definitions

* `Tree.trail`: the trail that reading a tree leaves.

## Main results

* `Tree.map_congr`: the symbols that are met along the trail are all the symbols of the tree.
* `Tree.resolve_eq`: each symbol of a tree is found in the table of its trail.
-/

namespace Pseudocode

namespace Tree

mutual

/-- The trail that reading a tree leaves. -/
def trail : Tree Symbol → List Event
  | sequence items => trailAll items
  | cell s => [.met s]
  | assignment target expression => .met target :: expression.trail
  | binary _ _ lhs rhs => lhs.trail ++ rhs.trail
  | unary _ _ operand => operand.trail
  | ifThen condition body => condition.trail ++ body.trail
  | choice arms => trailArms arms
  | whileDo condition body => condition.trail ++ body.trail
  | repeatUntil body condition => body.trail ++ condition.trail
  | forLoop init condition step body =>
    trailClause init ++ (condition.trail ++ (trailClause step ++ body.trail))
  | read cells => cells.map .met
  | write items => trailItems items

/-- `Tree.trail` along instructions, each of which is understood behind its parts. -/
def trailAll : List (Tree Symbol) → List Event
  | [] => []
  | t :: ts => t.trail ++ .understood t.name :: trailAll ts

/-- `Tree.trail` along the arms of a choice. -/
def trailArms : List (Arm Symbol) → List Event
  | [] => []
  | .guarded condition body :: arms => condition.trail ++ (body.trail ++ trailArms arms)
  | .otherwise body :: arms => body.trail ++ trailArms arms

/-- `Tree.trail` inside a clause. -/
def trailClause : Clause Symbol → List Event
  | .absent => []
  | .assign target expression => .met target :: expression.trail

/-- `Tree.trail` along the items of an output instruction. -/
def trailItems : List (Item Symbol) → List Event
  | [] => []
  | .value expression :: items => expression.trail ++ trailItems items
  | .text _ :: items => trailItems items

end

theorem trailAll_eq_flatMap (ts : List (Tree Symbol)) :
    trailAll ts = ts.flatMap fun t ↦ t.trail ++ [.understood t.name] := by
  induction ts with
  | nil => rfl
  | cons t ts ih => simp [trailAll, ih]

/-- `Tree.trail` inside one arm. -/
def trailArm : Arm Symbol → List Event
  | .guarded condition body => condition.trail ++ body.trail
  | .otherwise body => body.trail

theorem trailArms_eq_flatMap (arms : List (Arm Symbol)) :
    trailArms arms = arms.flatMap trailArm := by
  induction arms with
  | nil => rfl
  | cons arm arms ih => cases arm <;> simp [trailArms, trailArm, ih]

/-- `Tree.trail` inside one item. -/
def trailItem : Item Symbol → List Event
  | .value expression => expression.trail
  | .text _ => []

theorem trailItems_eq_flatMap (items : List (Item Symbol)) :
    trailItems items = items.flatMap trailItem := by
  induction items with
  | nil => rfl
  | cons item items ih => cases item <;> simp [trailItems, trailItem, ih]

/-! ### The symbols of a tree -/

section Map

variable {α β γ : Type}

mutual

theorem map_map (f : α → β) (g : β → γ) : ∀ t : Tree α, (t.map f).map g = t.map (g ∘ f)
  | sequence items => by rw [map, map, map, mapList_mapList]
  | cell _ => rfl
  | assignment _ expression => by rw [map, map, map, map_map f g expression]; rfl
  | binary _ _ lhs rhs => by rw [map, map, map, map_map f g lhs, map_map f g rhs]
  | unary _ _ operand => by rw [map, map, map, map_map f g operand]
  | ifThen condition body => by rw [map, map, map, map_map f g condition, map_map f g body]
  | choice arms => by rw [map, map, map, mapArms_mapArms]
  | whileDo condition body => by rw [map, map, map, map_map f g condition, map_map f g body]
  | repeatUntil body condition => by rw [map, map, map, map_map f g condition, map_map f g body]
  | forLoop init condition step body => by
    rw [map, map, map, mapClause_mapClause f g init, map_map f g condition,
      mapClause_mapClause f g step, map_map f g body]
  | read cells => by rw [map, map, map, List.map_map]
  | write items => by rw [map, map, map, mapItems_mapItems]
termination_by structural t => t

theorem mapList_mapList (f : α → β) (g : β → γ) :
    ∀ ts : List (Tree α), mapList g (mapList f ts) = mapList (g ∘ f) ts
  | [] => rfl
  | t :: ts => by rw [mapList, mapList, mapList, map_map f g t, mapList_mapList f g ts]
termination_by structural ts => ts

theorem mapArms_mapArms (f : α → β) (g : β → γ) :
    ∀ arms : List (Arm α), mapArms g (mapArms f arms) = mapArms (g ∘ f) arms
  | [] => rfl
  | .guarded condition body :: arms => by
    rw [mapArms, mapArms, mapArms, map_map f g condition, map_map f g body,
      mapArms_mapArms f g arms]
  | .otherwise body :: arms => by
    rw [mapArms, mapArms, mapArms, map_map f g body, mapArms_mapArms f g arms]
termination_by structural arms => arms

theorem mapClause_mapClause (f : α → β) (g : β → γ) :
    ∀ c : Clause α, mapClause g (mapClause f c) = mapClause (g ∘ f) c
  | .absent => rfl
  | .assign _ expression => by
    rw [mapClause, mapClause, mapClause, map_map f g expression]
    rfl
termination_by structural c => c

theorem mapItems_mapItems (f : α → β) (g : β → γ) :
    ∀ items : List (Item α), mapItems g (mapItems f items) = mapItems (g ∘ f) items
  | [] => rfl
  | .value expression :: items => by
    rw [mapItems, mapItems, mapItems, map_map f g expression, mapItems_mapItems f g items]
  | .text _ :: items => by
    rw [mapItems, mapItems, mapItems, mapItems_mapItems f g items]
termination_by structural items => items

end

variable {f g : Symbol → α}

mutual

/-- What a tree is mapped to depends on the symbols that are met along its trail only. -/
theorem map_congr : ∀ (t : Tree Symbol), (∀ s, .met s ∈ t.trail → f s = g s) → t.map f = t.map g
  | sequence items => fun h ↦ by rw [map, map, mapList_congr items h]
  | cell s => fun h ↦ by rw [map, map, h s List.mem_cons_self]
  | assignment target expression => fun h ↦ by
    rw [map, map, h target List.mem_cons_self,
      map_congr expression fun s hs ↦ h s (List.mem_cons_of_mem _ hs)]
  | binary _ _ lhs rhs => fun h ↦ by
    rw [map, map, map_congr lhs fun s hs ↦ h s (List.mem_append_left _ hs),
      map_congr rhs fun s hs ↦ h s (List.mem_append_right _ hs)]
  | unary _ _ operand => fun h ↦ by rw [map, map, map_congr operand h]
  | ifThen condition body => fun h ↦ by
    rw [map, map, map_congr condition fun s hs ↦ h s (List.mem_append_left _ hs),
      map_congr body fun s hs ↦ h s (List.mem_append_right _ hs)]
  | choice arms => fun h ↦ by rw [map, map, mapArms_congr arms h]
  | whileDo condition body => fun h ↦ by
    rw [map, map, map_congr condition fun s hs ↦ h s (List.mem_append_left _ hs),
      map_congr body fun s hs ↦ h s (List.mem_append_right _ hs)]
  | repeatUntil body condition => fun h ↦ by
    rw [map, map, map_congr body fun s hs ↦ h s (List.mem_append_left _ hs),
      map_congr condition fun s hs ↦ h s (List.mem_append_right _ hs)]
  | forLoop init condition step body => fun h ↦ by
    simp only [trail, List.mem_append] at h
    rw [map, map, mapClause_congr init fun s hs ↦ h s (.inl hs),
      map_congr condition fun s hs ↦ h s (.inr (.inl hs)),
      mapClause_congr step fun s hs ↦ h s (.inr (.inr (.inl hs))),
      map_congr body fun s hs ↦ h s (.inr (.inr (.inr hs)))]
  | read cells => fun h ↦ by
    rw [map, map, List.map_congr_left fun s hs ↦ h s (List.mem_map_of_mem hs)]
  | write items => fun h ↦ by rw [map, map, mapItems_congr items h]
termination_by structural t => t

theorem mapList_congr : ∀ (ts : List (Tree Symbol)), (∀ s, .met s ∈ trailAll ts → f s = g s) →
    mapList f ts = mapList g ts
  | [] => fun _ ↦ rfl
  | t :: ts => fun h ↦ by
    rw [mapList, mapList, map_congr t fun s hs ↦ h s (List.mem_append_left _ hs),
      mapList_congr ts fun s hs ↦ h s (List.mem_append_right _ (List.mem_cons_of_mem _ hs))]
termination_by structural ts => ts

theorem mapArms_congr : ∀ (arms : List (Arm Symbol)),
    (∀ s, .met s ∈ trailArms arms → f s = g s) → mapArms f arms = mapArms g arms
  | [] => fun _ ↦ rfl
  | .guarded condition body :: arms => fun h ↦ by
    simp only [trailArms, List.mem_append] at h
    rw [mapArms, mapArms, map_congr condition fun s hs ↦ h s (.inl hs),
      map_congr body fun s hs ↦ h s (.inr (.inl hs)),
      mapArms_congr arms fun s hs ↦ h s (.inr (.inr hs))]
  | .otherwise body :: arms => fun h ↦ by
    rw [mapArms, mapArms, map_congr body fun s hs ↦ h s (List.mem_append_left _ hs),
      mapArms_congr arms fun s hs ↦ h s (List.mem_append_right _ hs)]
termination_by structural arms => arms

theorem mapClause_congr : ∀ (c : Clause Symbol), (∀ s, .met s ∈ trailClause c → f s = g s) →
    mapClause f c = mapClause g c
  | .absent => fun _ ↦ rfl
  | .assign target expression => fun h ↦ by
    rw [mapClause, mapClause, h target List.mem_cons_self,
      map_congr expression fun s hs ↦ h s (List.mem_cons_of_mem _ hs)]
termination_by structural c => c

theorem mapItems_congr : ∀ (items : List (Item Symbol)),
    (∀ s, .met s ∈ trailItems items → f s = g s) → mapItems f items = mapItems g items
  | [] => fun _ ↦ rfl
  | .value expression :: items => fun h ↦ by
    rw [mapItems, mapItems, map_congr expression fun s hs ↦ h s (List.mem_append_left _ hs),
      mapItems_congr items fun s hs ↦ h s (List.mem_append_right _ hs)]
  | .text _ :: items => fun h ↦ by rw [mapItems, mapItems, mapItems_congr items h]
termination_by structural items => items

end

end Map

end Tree

/-! ### The table of a trail -/

theorem Table.contains_intern_of_contains {t : Table} {name : String} (s : Symbol)
    (h : t.contains name = true) : (t.intern s).contains name = true := by
  unfold intern
  split
  · exact h
  · obtain ⟨c, hc, hname⟩ := contains_eq_true_iff.1 h
    exact contains_eq_true_iff.2 ⟨c, Array.mem_push.2 (.inl hc), hname⟩

theorem Table.contains_internAll {symbols : List Symbol} {name : String} (t : Table)
    (h : t.contains name = true ∨ ∃ s ∈ symbols, s.text = name) :
    (t.internAll symbols).contains name = true := by
  induction symbols generalizing t with
  | nil => exact h.resolve_right fun ⟨s, hs, _⟩ ↦ absurd hs List.not_mem_nil
  | cons s symbols ih =>
    refine ih (t.intern s) ?_
    rcases h with h | ⟨u, hu, rfl⟩
    · exact .inl (contains_intern_of_contains s h)
    · rcases List.mem_cons.1 hu with rfl | hu
      · exact .inl (t.contains_intern_self u)
      · exact .inr ⟨u, hu, rfl⟩

theorem Trail.mem_symbols_iff {trail : List Event} {s : Symbol} :
    s ∈ symbols trail ↔ .met s ∈ trail := by
  refine List.mem_filterMap.trans ⟨?_, fun h ↦ ⟨_, h, rfl⟩⟩
  rintro ⟨e, he, hsymbol⟩
  cases e <;> cases hsymbol
  exact he

/-- Every symbol that is met has its cell. -/
theorem Trail.contains_table {trail : List Event} {s : Symbol} (h : .met s ∈ trail) :
    (table trail).contains s.text = true :=
  Table.contains_internAll {} (.inr ⟨s, mem_symbols_iff.2 h, rfl⟩)

theorem Table.find?_of_contains {t : Table} {name : String} (h : t.contains name = true) :
    t.find? name = some (t.indexOf name) :=
  find?_eq_some_iff.2 ⟨indexOf_lt_size_iff.2 h, rfl⟩

/-- Each symbol of a tree is found in the table of its trail. -/
theorem Tree.resolve_eq (tree : Tree Symbol) :
    (tree.resolve (Trail.table tree.trail)).map some =
      tree.map fun s ↦ (Trail.table tree.trail).find? s.text := by
  rw [resolve, map_map]
  exact tree.map_congr fun s hs ↦ (Table.find?_of_contains (Trail.contains_table hs)).symm

end Pseudocode
