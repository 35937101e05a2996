/-
ScriptMachine.Proofs.Activation — stores that take turns at being active do not
interfere.
-/
import ScriptMachine.Service.World
import ScriptMachine.Proofs.Sessions.WellFormed

namespace ScriptMachine

namespace World

variable {α : Type}

/-- What a host does in one step. -/
inductive Event where
  | activate (i : Nat)
  | deactivate
  | direct (i : Nat) (change : Store → Store)
  | call (now : Word) (c : Call)

def step (world : World) : Event → World
  | .activate i => world.activate i
  | .deactivate => world.deactivate
  | .direct i change => (world.at? i fun s => ((), change s)).2
  | .call now c => (world.call now c).2

/-- The world after a history. -/
def after (world : World) (events : List Event) : World := events.foldl step world

/-- The activations that last after a step, the innermost first. -/
def Event.nest (nest : List Nat) : Event → List Nat
  | .activate i => i :: nest
  | .deactivate => nest.tail
  | .direct .. | .call .. => nest

inductive Deed where
  | direct (change : Store → Store)
  | serve (request : Service.Request)

def Deed.perform (s : Store) : Deed → Store
  | .direct change => change s
  | .serve request => (request.serve s).2

def Event.deed? (i : Nat) (nest : List Nat) : Event → Option Deed
  | .direct j change => if j = i then some (.direct change) else none
  | .call _ (.service request) => if nest.head? = some i then some (.serve request) else none
  | .activate _ | .deactivate | .call _ .clock | .call _ (.construct ..) => none

/-- The share of the store `i` in a history that starts inside of some
activations. -/
def deeds (i : Nat) : List Nat → List Event → List Deed
  | _, [] => []
  | nest, e :: events => (e.deed? i nest).toList ++ deeds i (e.nest nest) events

/-- A store that is left alone with its share. -/
def alone (s : Store) (work : List Deed) : Store := work.foldl Deed.perform s

variable {world : World} {nest : List Nat}

def Nested (world : World) (nest : List Nat) : Prop :=
  world.active :: world.guards = nest.map some ++ [none]

theorem Nested.active_eq (h : world.Nested nest) : world.active = nest.head? := by
  cases nest with
  | nil => exact (List.cons.inj h).1
  | cons i nest => exact (List.cons.inj h).1

theorem Nested.deactivate (h : world.Nested nest) : world.deactivate.Nested nest.tail := by
  unfold World.deactivate
  cases nest with
  | nil =>
    have hgua : world.guards = [] := (List.cons.inj h).2
    rw [hgua]
    exact h
  | cons i nest =>
    have hgua : world.guards = nest.map some ++ [none] := (List.cons.inj h).2
    cases hc : world.guards with
    | nil => simp [hc] at hgua
    | cons previous rest =>
      rw [hc] at hgua
      exact hgua

theorem at?_activation (world : World) (i : Nat) (f : Store → α × Store) :
    (world.at? i f).2.active = world.active ∧ (world.at? i f).2.guards = world.guards := by
  unfold at?
  split <;> exact ⟨rfl, rfl⟩

theorem serve_activation (world : World) (request : Service.Request) :
    (world.serve request).2.active = world.active ∧
      (world.serve request).2.guards = world.guards := by
  unfold serve
  split
  · exact world.at?_activation _ _
  · exact ⟨rfl, rfl⟩

theorem Nested.step (h : world.Nested nest) (e : Event) : (world.step e).Nested (e.nest nest) := by
  cases e with
  | activate i => exact congrArg (some i :: ·) h
  | deactivate => exact h.deactivate
  | direct i change =>
    obtain ⟨hact, hgua⟩ := world.at?_activation i fun s => ((), change s)
    simpa only [Nested, World.step, Event.nest, hact, hgua] using h
  | call now c =>
    cases c with
    | service request =>
      obtain ⟨hact, hgua⟩ := world.serve_activation request
      simpa only [Nested, World.step, World.call, Event.nest, hact, hgua] using h
    | clock => exact h
    | construct callee receiver => exact h

theorem Nested.after (h : world.Nested nest) (events : List Event) :
    (world.after events).Nested (events.foldl Event.nest nest) := by
  induction events generalizing world nest with
  | nil => exact h
  | cons e events ih => exact ih (h.step e)

theorem at?_fst (world : World) (i : Nat) (f : Store → α × Store) :
    (world.at? i f).1 = world.stores[i]?.map fun s => (f s).1 := by
  unfold at?
  split <;> simp [*]

theorem at?_stores (world : World) (i j : Nat) (f : Store → α × Store) :
    (world.at? j f).2.stores[i]? =
      world.stores[i]?.map fun s => if j = i then (f s).2 else s := by
  unfold at?
  by_cases hij : j = i
  · subst hij
    cases hs : world.stores[j]? with
    | none => simp [hs]
    | some s =>
      have hlt : j < world.stores.size := (Array.getElem?_eq_some_iff.1 hs).1
      simp [hlt]
  · cases hs : world.stores[j]? with
    | none => simp [hij]
    | some s => simp [hij]

theorem Nested.serve_stores (h : world.Nested nest) (request : Service.Request) (i : Nat) :
    (world.serve request).2.stores[i]? =
      world.stores[i]?.map fun s => if nest.head? = some i then (request.serve s).2 else s := by
  rw [← h.active_eq, serve]
  cases world.active with
  | none => simp
  | some j => simpa using world.at?_stores i j request.serve

theorem Nested.serve_fst (h : world.Nested nest) (request : Service.Request) {i : Nat} {s : Store}
    (hi : nest.head? = some i) (hs : world.stores[i]? = some s) :
    (world.serve request).1 = (request.serve s).1 := by
  rw [serve, h.active_eq, hi]
  simp [at?_fst, hs]

theorem Nested.serve_idle (h : world.Nested []) (request : Service.Request) :
    world.serve request = (request.idle, world) := by
  rw [serve, h.active_eq, List.head?_nil]

theorem Nested.step_stores (h : world.Nested nest) (e : Event) (i : Nat) :
    (world.step e).stores[i]? = world.stores[i]?.map (alone · (e.deed? i nest).toList) := by
  cases e with
  | activate j => simp [World.step, World.activate, Event.deed?, alone]
  | deactivate =>
    have hsts : world.deactivate.stores = world.stores := by
      unfold World.deactivate
      split <;> rfl
    simp [World.step, hsts, Event.deed?, alone]
  | direct j change =>
    rw [World.step, at?_stores, Event.deed?]
    split <;> rfl
  | call now c =>
    cases c with
    | service request =>
      rw [World.step, World.call, h.serve_stores, Event.deed?]
      split <;> rfl
    | clock => simp [World.step, World.call, Event.deed?, alone]
    | construct callee receiver => simp [World.step, World.call, Event.deed?, alone]

theorem Nested.after_stores (h : world.Nested nest) (events : List Event) (i : Nat) :
    (world.after events).stores[i]? = world.stores[i]?.map (alone · (deeds i nest events)) := by
  induction events generalizing world nest with
  | nil => simp [World.after, deeds, alone]
  | cons e events ih =>
    have ht := ih (h.step e)
    rw [h.step_stores, Option.map_map] at ht
    simpa only [World.after, deeds, alone, List.foldl_cons, List.foldl_append,
      Function.comp_def] using ht

/-- **Stores do not interfere.** Any stores start with none of them active, and a
host does anything with them. Then each store is as it would be had it been alone
with its share of the history: the operations on it, and the routines called
while it was the innermost active one. What it is asked next is answered
accordingly, directly or by a routine. While none is active, a routine changes
nothing, and answers nil, or zero if it was to resolve a call. The clock and the
default construction answer without any store. -/
theorem stores_do_not_interfere (stores : Array Store) (events : List Event) :
    let world := World.after { stores } events
    let nest := events.foldl Event.nest []
    (∀ i : Nat, world.stores[i]? = stores[i]?.map (alone · (deeds i [] events))) ∧
    (∀ (i : Nat) (α : Type) (f : Store → α × Store),
      (world.at? i f).1 = stores[i]?.map fun s => (f (alone s (deeds i [] events))).1) ∧
    (∀ (i : Nat) (s : Store) (now : Word) (request : Service.Request),
      nest.head? = some i → stores[i]? = some s →
        (world.call now (.service request)).1 =
          (request.serve (alone s (deeds i [] events))).1) ∧
    (∀ (now : Word) (request : Service.Request), nest = [] →
      world.call now (.service request) =
        ({ word := if request.service = .prepareCall then .zero else .nil }, world)) ∧
    (∀ now : Word, world.call now .clock = ({ word := now }, world)) ∧
    ∀ now callee receiver : Word,
      world.call now (.construct callee receiver) = ({ word := receiver }, world) := by
  intro world nest
  have hsta : Nested { stores } [] := rfl
  have hnes : world.Nested nest := hsta.after events
  have hsts : ∀ i : Nat, world.stores[i]? = stores[i]?.map (alone · (deeds i [] events)) :=
    hsta.after_stores events
  refine ⟨hsts, ?_, ?_, ?_, fun _ => rfl, fun _ _ _ => rfl⟩
  · intro i α f
    rw [at?_fst, hsts, Option.map_map]
    rfl
  · intro i s now request hi hs
    refine hnes.serve_fst request hi ?_
    rw [hsts, hs]
    rfl
  · intro now request hn
    rw [hn] at hnes
    rw [World.call, hnes.serve_idle, Service.Request.idle]
    cases request.service <;> rfl

/-- Two stores that make a cell each, one inside the activation of the other. The
outer one is the active one again, and finds its own cell. -/
theorem stores_do_not_interfere_cells :
    let s := Session.small.store
    let cell (w : Word) : Event := .call .zero (.service { service := .newCell, words := [w] })
    let events : List Event :=
      [.activate 0, cell (.ofNumber 5), .activate 1, cell (.ofNumber 7),
        .direct 0 fun s => s.defineGlobal "x" .nil, .deactivate]
    let world := World.after { stores := #[s, s] } events
    (world.call .zero (.service { service := .cellGet, words := [.ofIndex 1] })).1.word =
        .ofNumber 5 ∧
      (deeds 0 [] events).length = 2 ∧ (deeds 1 [] events).length = 1 := by
  intro s cell events world
  decide +kernel

end World

end ScriptMachine
