import Mathlib.Data.List.Induction
import Mathlib.Data.List.Nodup
import Mathlib.Logic.Function.Basic

/-!
# Doubly linked lists

Nodes are named by indices, and the links of a node name its neighbours. A list of indices is
linked between two ends if every index has its neighbours in the list as links. Taking an index
out and putting one in front change the links of two neighbours, and keep the list linked.
-/

universe u

/-- The neighbours of a node. -/
@[ext] structure Link (ι : Type u) where
  prev : Option ι
  next : Option ι
  deriving DecidableEq

namespace Link

open List

variable {ι : Type u}

/-- The indices are linked in this order, between the ends given. -/
def Seg (link : ι → Option (Link ι)) : Option ι → List ι → Option ι → Prop
  | _, [], _ => True
  | before, x :: rest, after =>
    link x = some ⟨before, rest.head?.or after⟩ ∧ Seg link (some x) rest after

variable {link link' : ι → Option (Link ι)} {before after : Option ι} {l a b : List ι} {x : ι}

theorem Seg.congr (seg : Seg link before l after) (same : ∀ x ∈ l, link' x = link x) :
    Seg link' before l after := by
  induction l generalizing before with
  | nil => trivial
  | cons x l ih =>
    exact ⟨(same x mem_cons_self).trans seg.1,
      ih seg.2 fun y mem => same y (mem_cons_of_mem x mem)⟩

theorem seg_append : Seg link before (a ++ b) after ↔
    Seg link before a (b.head?.or after) ∧ Seg link (a.getLast?.or before) b after := by
  induction a generalizing before with
  | nil => simp [Seg]
  | cons x a ih =>
    have head : (a ++ b).head?.or after = a.head?.or (b.head?.or after) := by
      rw [head?_append, Option.or_assoc]
    have last : (x :: a).getLast?.or before = a.getLast?.or (some x) := by
      cases a with
      | nil => rfl
      | cons y a => simp [getLast?_cons]
    rw [cons_append, Seg, Seg, ih, head, last, and_assoc]

/-- An index in the list has the links that its place says. -/
theorem seg_middle : Seg link before (a ++ x :: b) after ↔
    Seg link before a (some x) ∧ link x = some ⟨a.getLast?.or before, b.head?.or after⟩ ∧
      Seg link (some x) b after := by
  rw [seg_append, Seg]
  rfl

variable [DecidableEq ι]

/-- The next link of an index, if there is one, is set. -/
def setNext (link : ι → Option (Link ι)) (x next : Option ι) : ι → Option (Link ι) :=
  match x with
  | some x => Function.update link x ((link x).map fun k => { k with next })
  | none => link

def setPrev (link : ι → Option (Link ι)) (x prev : Option ι) : ι → Option (Link ι) :=
  match x with
  | some x => Function.update link x ((link x).map fun k => { k with prev })
  | none => link

variable {target : Option ι} {y : ι}

theorem setNext_of_ne {next : Option ι} (other : target ≠ some y) :
    setNext link target next y = link y := by
  cases target with
  | none => rfl
  | some x => exact Function.update_of_ne (fun same => other (congrArg some same.symm)) _ _

theorem setPrev_of_ne {prev : Option ι} (other : target ≠ some y) :
    setPrev link target prev y = link y := by
  cases target with
  | none => rfl
  | some x => exact Function.update_of_ne (fun same => other (congrArg some same.symm)) _ _

/-- Another end of a list, by the next link of its last index. -/
theorem Seg.setNext (seg : Seg link before l after) (nodup : l.Nodup) (next : Option ι) :
    Seg (setNext link l.getLast? next) before l next := by
  induction l using List.reverseRecOn with
  | nil => trivial
  | append_singleton l x =>
    rw [getLast?_append_of_ne_nil _ (cons_ne_nil x [])]
    obtain ⟨front, at_x, -⟩ := seg_middle.mp seg
    have apart : x ∉ l := fun mem =>
      disjoint_of_nodup_append nodup mem (mem_singleton_self x)
    refine seg_middle.mpr ⟨front.congr fun y mem => setNext_of_ne ?_, ?_, trivial⟩
    · intro same
      obtain rfl : x = y := by simpa using same
      exact apart mem
    · simp [Link.setNext, at_x]

/-- Another start of a list, by the link to before its first index. -/
theorem Seg.setPrev (seg : Seg link before l after) (nodup : l.Nodup) (prev : Option ι) :
    Seg (setPrev link l.head? prev) prev l after := by
  cases l with
  | nil => trivial
  | cons x l =>
    obtain ⟨at_x, rest⟩ := seg
    refine ⟨by simp [Link.setPrev, at_x], rest.congr fun y mem => setPrev_of_ne ?_⟩
    intro same
    obtain rfl : x = y := by simpa using same
    exact (nodup_cons.mp nodup).1 mem

/-- The neighbours of an index are linked to each other. -/
theorem Seg.unlink (seg : Seg link none (a ++ x :: b) none) (nodup : (a ++ x :: b).Nodup) :
    Seg (Link.setPrev (Link.setNext link a.getLast? b.head?) b.head? a.getLast?) none (a ++ b)
      none := by
  obtain ⟨front, -, back⟩ := seg_middle.mp seg
  obtain ⟨nodup_a, nodup_b, apart⟩ := nodup_append.mp nodup
  have nodup_b := (nodup_cons.mp nodup_b).2
  have away {y : ι} (mem : y ∈ a) : y ∉ b := fun mem' => apart y mem y (by simp [mem']) rfl
  refine seg_append.mpr ⟨?_, ?_⟩
  · rw [Option.or_none]
    refine (front.setNext nodup_a b.head?).congr fun y mem => setPrev_of_ne fun same => ?_
    exact away mem (mem_of_head? same)
  · rw [Option.or_none]
    have kept : Seg (Link.setNext link a.getLast? b.head?) (some x) b none := by
      refine back.congr fun y mem => setNext_of_ne fun same => ?_
      exact away (mem_of_getLast? same) mem
    exact kept.setPrev nodup_b a.getLast?

/-- An index with the right links goes in front. -/
theorem Seg.push (seg : Seg link none l none) (nodup : l.Nodup) (new : x ∉ l)
    (at_x : link x = some ⟨none, l.head?⟩) :
    Seg (Link.setPrev link l.head? (some x)) none (x :: l) none := by
  refine ⟨?_, seg.setPrev nodup (some x)⟩
  rw [setPrev_of_ne, at_x, Option.or_none]
  exact fun same => new (mem_of_head? same)

end Link
