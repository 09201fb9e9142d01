import Mathlib.Data.List.DropRight
import Mathlib.Logic.Function.Basic

/-!
# Histories of queues

A family of first-in first-out queues, one for each source, seen from outside: what was pushed,
what was returned, and when queues were dropped. A history fits the contents of the queues when,
for every source and since its queue was last dropped, the pushed items are the returned ones
followed by those that are still queued. Then no item is lost, none is returned twice and none is
overtaken by a later one of its source.
-/

namespace RsNano

open Function

/-- What can be observed of a family of queues. -/
inductive QueueEvent (S T : Type*)
  | pushed (source : S) (item : T)
  | returned (source : S) (item : T)
  | removed (source : S)
  | cleared

namespace QueueEvent

variable {S T : Type*} [DecidableEq S]

/-- The event drops the queue of the source. -/
def drops (source : S) : QueueEvent S T → Bool
  | removed s => s = source
  | cleared => true
  | _ => false

def pushedItem (source : S) : QueueEvent S T → Option T
  | pushed s item => if s = source then some item else none
  | _ => none

def returnedItem (source : S) : QueueEvent S T → Option T
  | returned s item => if s = source then some item else none
  | _ => none

end QueueEvent

open QueueEvent

variable {S T : Type*} [DecidableEq S]

/-- The events since the queue of the source was last dropped. -/
def eventsSince (source : S) (trace : List (QueueEvent S T)) : List (QueueEvent S T) :=
  trace.rtakeWhile fun e => !e.drops source

/-- The items of the source that were pushed since its queue was last dropped. -/
def pushedItems (source : S) (trace : List (QueueEvent S T)) : List T :=
  (eventsSince source trace).filterMap (pushedItem source)

/-- The items of the source that were returned since its queue was last dropped. -/
def returnedItems (source : S) (trace : List (QueueEvent S T)) : List T :=
  (eventsSince source trace).filterMap (returnedItem source)

/-- The history fits the contents of the queues. -/
def Fits (trace : List (QueueEvent S T)) (contents : S → List T) : Prop :=
  ∀ source, pushedItems source trace = returnedItems source trace ++ contents source

variable {source s : S} {item : T} {trace : List (QueueEvent S T)} {contents : S → List T}
  {e : QueueEvent S T}

theorem eventsSince_append_of_drops (h : e.drops source = true) :
    eventsSince source (trace ++ [e]) = [] := by
  rw [eventsSince, List.rtakeWhile_concat, h]
  rfl

section

variable (h : e.drops source = false)

include h

theorem eventsSince_append :
    eventsSince source (trace ++ [e]) = eventsSince source trace ++ [e] := by
  rw [eventsSince, List.rtakeWhile_concat, h]
  rfl

theorem filterMap_eventsSince_append (f : QueueEvent S T → Option T) :
    (eventsSince source (trace ++ [e])).filterMap f =
      (eventsSince source trace).filterMap f ++ (f e).toList := by
  rw [eventsSince_append h]
  cases he : f e <;> simp [he]

theorem pushedItems_append :
    pushedItems source (trace ++ [e]) = pushedItems source trace ++ (pushedItem source e).toList :=
  filterMap_eventsSince_append h _

theorem returnedItems_append :
    returnedItems source (trace ++ [e]) =
      returnedItems source trace ++ (returnedItem source e).toList :=
  filterMap_eventsSince_append h _

end

namespace Fits

theorem nil : Fits ([] : List (QueueEvent S T)) fun _ => [] := fun _ => rfl

/-- A pushed item goes to the end of its queue. -/
theorem push (h : Fits trace contents) (s : S) (item : T) :
    Fits (trace ++ [.pushed s item]) (update contents s (contents s ++ [item])) := by
  intro source
  rw [pushedItems_append rfl, returnedItems_append rfl, h source]
  by_cases hs : s = source
  · subst hs
    simp [pushedItem, returnedItem]
  · simp [pushedItem, returnedItem, hs, update_of_ne (Ne.symm hs)]

/-- An item is returned from the front of its queue. -/
theorem pop (h : Fits trace contents) {rest : List T} (hs : contents s = item :: rest) :
    Fits (trace ++ [.returned s item]) (update contents s rest) := by
  intro source
  rw [pushedItems_append rfl, returnedItems_append rfl, h source]
  by_cases heq : s = source
  · subst heq
    simp [pushedItem, returnedItem, hs]
  · simp [pushedItem, returnedItem, heq, update_of_ne (Ne.symm heq)]

/-- A queue that is dropped starts again. -/
theorem remove (h : Fits trace contents) (s : S) :
    Fits (trace ++ [.removed s]) (update contents s []) := by
  intro source
  by_cases hs : s = source
  · subst hs
    have hdrops : (removed s : QueueEvent S T).drops s = true := decide_eq_true rfl
    rw [pushedItems, returnedItems, eventsSince_append_of_drops hdrops, update_self]
    rfl
  · have hdrops : (removed s : QueueEvent S T).drops source = false := decide_eq_false hs
    rw [pushedItems_append hdrops, returnedItems_append hdrops, h source, update_of_ne (Ne.symm hs)]
    simp [pushedItem, returnedItem]

/-- All queues are dropped. -/
theorem clear (trace : List (QueueEvent S T)) : Fits (trace ++ [.cleared]) fun _ => [] := by
  intro source
  rw [pushedItems, returnedItems, eventsSince_append_of_drops rfl]
  rfl

end Fits

end RsNano
