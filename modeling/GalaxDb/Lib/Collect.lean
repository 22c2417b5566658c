import Mathlib.Data.List.Forall2
import Mathlib.Data.List.Nodup

/-!
# Collecting items by key

A map from keys to lists, each item appended to the list of its key. The entries are kept in
the order of the first item of their keys; a hash map hands them out in any other order.
-/

universe u v

namespace Collect

open List

variable {κ : Type u} {ν : Type v}

/-- The order in which a hash map is iterated. -/
structure MapOrder (α : Type u) where
  arrange : List α → List α
  perm : ∀ entries, (arrange entries).Perm entries

def MapOrder.plain (α : Type u) : MapOrder α := ⟨id, fun _ => List.Perm.refl _⟩

def MapOrder.reversed (α : Type u) : MapOrder α := ⟨List.reverse, reverse_perm⟩

variable [DecidableEq κ]

/-- `entry(key).or_default().push(item)`. -/
def push (entries : List (κ × List ν)) (key : κ) (item : ν) : List (κ × List ν) :=
  match entries with
  | [] => [(key, [item])]
  | e :: rest => if e.1 = key then (key, e.2 ++ [item]) :: rest else e :: push rest key item

def collect (items : List (κ × ν)) : List (κ × List ν) :=
  items.foldl (fun entries i => push entries i.1 i.2) []

/-- The items of a key. -/
def itemsOf (items : List (κ × ν)) (key : κ) : List ν :=
  (items.filter fun i => i.1 = key).map Prod.snd

/-- The entries are the keys that occur, each once, with their items. -/
structure Collected (items : List (κ × ν)) (entries : List (κ × List ν)) : Prop where
  once : (entries.map Prod.fst).Nodup
  mem : ∀ key values, (key, values) ∈ entries ↔ values ≠ [] ∧ values = itemsOf items key

variable {items : List (κ × ν)} {entries : List (κ × List ν)} {key : κ} {item : ν}

theorem map_fst_push : ((push entries key item).map Prod.fst) =
    if key ∈ entries.map Prod.fst then entries.map Prod.fst
    else entries.map Prod.fst ++ [key] := by
  induction entries with
  | nil => simp [push]
  | cons e rest ih =>
    rw [push]
    by_cases same : e.1 = key
    · simp [same]
    · simp only [same, ↓reduceIte, map_cons, ih, mem_cons, eq_comm (a := key), false_or]
      split <;> rfl

theorem mem_push (once : (entries.map Prod.fst).Nodup) {k : κ} {values : List ν} :
    (k, values) ∈ push entries key item ↔ if k = key then
        (∃ before, (key, before) ∈ entries ∧ values = before ++ [item]) ∨
          key ∉ entries.map Prod.fst ∧ values = [item]
      else (k, values) ∈ entries := by
  induction entries with
  | nil =>
    simp only [push, mem_singleton, Prod.mk.injEq, not_mem_nil, false_and, exists_false,
      map_nil, not_false_eq_true, true_and, false_or]
    split
    · next same => simp [same]
    · next other => simp [other]
  | cons e rest ih =>
    obtain ⟨name, before⟩ := e
    obtain ⟨fresh, once⟩ := nodup_cons.mp once
    rw [push]
    by_cases same : name = key
    · subst same
      have gone : ∀ values, (name, values) ∉ rest :=
        fun values mem => fresh (mem_map.mpr ⟨(name, values), mem, rfl⟩)
      by_cases here : k = name
      · subst here
        simp [gone]
      · simp [here]
    · simp only [same, ↓reduceIte, mem_cons, ih once, Prod.mk.injEq, map_cons,
        eq_comm (a := key), false_and, false_or]
      by_cases here : k = key
      · subst here
        simp [eq_comm (a := k), same]
      · simp [here]

theorem Collected.push (h : Collected items entries) :
    Collected (items ++ [(key, item)]) (push entries key item) where
  once := by
    rw [map_fst_push]
    split
    · exact h.once
    · next fresh =>
      refine nodup_append.mpr ⟨h.once, by simp, ?_⟩
      rintro name mem other single rfl
      rw [mem_singleton] at single
      exact fresh (single ▸ mem)
  mem k values := by
    rw [mem_push h.once]
    by_cases here : k = key
    · subst here
      have known : k ∈ entries.map Prod.fst ↔ itemsOf items k ≠ [] := by
        rw [mem_map]
        constructor
        · rintro ⟨⟨_, before⟩, mem, rfl⟩
          obtain ⟨some_item, rfl⟩ := (h.mem _ before).mp mem
          exact some_item
        · intro some_item
          exact ⟨(k, itemsOf items k), (h.mem k _).mpr ⟨some_item, rfl⟩, rfl⟩
      have now : itemsOf (items ++ [(k, item)]) k = itemsOf items k ++ [item] := by simp [itemsOf]
      rw [if_pos rfl, now, known]
      simp only [h.mem]
      constructor
      · rintro (⟨before, ⟨-, rfl⟩, rfl⟩ | ⟨empty, rfl⟩)
        · simp
        · simp [not_not.mp empty]
      · rintro ⟨-, rfl⟩
        by_cases empty : itemsOf items k = []
        · simp [empty]
        · exact .inl ⟨_, ⟨empty, rfl⟩, rfl⟩
    · have now : itemsOf (items ++ [(key, item)]) k = itemsOf items k := by
        simp [itemsOf, eq_comm (a := key), here]
      rw [if_neg here, now, h.mem]

theorem collected_collect (items : List (κ × ν)) : Collected items (collect items) := by
  suffices gather : ∀ (rest done : List (κ × ν)) (entries : List (κ × List ν)),
      Collected done entries → Collected (done ++ rest)
        (rest.foldl (fun entries i => Collect.push entries i.1 i.2) entries) by
    have empty : Collected ([] : List (κ × ν)) [] := ⟨by simp, by simp [itemsOf]⟩
    exact gather items [] [] empty
  intro rest
  induction rest with
  | nil =>
    intro done entries h
    rwa [append_nil]
  | cons i rest ih =>
    intro done entries h
    have next := ih (done ++ [i]) (Collect.push entries i.1 i.2) h.push
    rwa [append_assoc] at next

theorem mem_itemsOf : item ∈ itemsOf items key ↔ (key, item) ∈ items := by
  simp only [itemsOf, mem_map, mem_filter, decide_eq_true_eq]
  constructor
  · rintro ⟨⟨_, _⟩, ⟨mem, rfl⟩, rfl⟩
    exact mem
  · intro mem
    exact ⟨(key, item), ⟨mem, rfl⟩, rfl⟩

section Loops

variable {α σ : Type u} {β : Type v} {f : σ → β → Option σ}

/-- A loop that keeps an invariant of what it has seen and what is left does not fail. -/
theorem exists_foldlM_split (Inv : σ → List β → List β → Prop) (step : ∀ s seen b rest,
    Inv s seen (b :: rest) → ∃ s', f s b = some s' ∧ Inv s' (seen ++ [b]) rest) :
    ∀ {rest seen : List β} {s : σ}, Inv s seen rest →
      ∃ s', rest.foldlM f s = some s' ∧ Inv s' (seen ++ rest) [] := by
  intro rest
  induction rest with
  | nil =>
    intro seen s kept
    exact ⟨s, rfl, by rwa [append_nil]⟩
  | cons b rest ih =>
    intro seen s kept
    obtain ⟨s', now, kept'⟩ := step s seen b rest kept
    obtain ⟨t, rest_done, at_end⟩ := ih kept'
    exact ⟨t, by simp [now, rest_done], by simpa using at_end⟩

/-- The rule for an invariant of what the loop has seen. -/
theorem exists_foldlM (Inv : σ → List β → Prop) {l : List β} (step :
    ∀ s seen b, b ∈ l → Inv s seen →
    ∃ s', f s b = some s' ∧ Inv s' (seen ++ [b])) {s : σ} (first : Inv s []) :
    ∃ s', l.foldlM f s = some s' ∧ Inv s' l := by
  obtain ⟨s', run, kept, _⟩ := @exists_foldlM_split _ _ f
    (fun s seen rest => Inv s seen ∧ ∀ b ∈ rest, b ∈ l)
    (by
      rintro s seen b rest ⟨kept, inside⟩
      obtain ⟨s', now, kept'⟩ := step s seen b (inside b mem_cons_self) kept
      exact ⟨s', now, kept', fun x member => inside x (mem_cons_of_mem _ member)⟩)
    l [] s ⟨first, fun _ member => member⟩
  exact ⟨s', run, kept⟩

variable {g : α → Option β} {l : List α}

/-- A pass in which no item fails. -/
theorem mapM_of_forall {h : α → β} (each : ∀ a ∈ l, g a = some (h a)) :
    l.mapM g = some (l.map h) := by
  induction l with
  | nil => rfl
  | cons a rest ih =>
    rw [mapM_cons, each a mem_cons_self,
      ih fun b member => each b (mem_cons_of_mem _ member)]
    rfl

theorem exists_mapM (each : ∀ a ∈ l, ∃ b, g a = some b) : ∃ l', l.mapM g = some l' := by
  induction l with
  | nil => exact ⟨[], rfl⟩
  | cons a rest ih =>
    obtain ⟨b, head⟩ := each a mem_cons_self
    obtain ⟨l', tail⟩ := ih fun c member => each c (mem_cons_of_mem _ member)
    exact ⟨b :: l', by rw [mapM_cons, head, tail]; rfl⟩

theorem forall₂_of_mapM {l' : List β} (collected : l.mapM g = some l') :
    List.Forall₂ (fun a b => g a = some b) l l' := by
  induction l generalizing l' with
  | nil =>
    cases collected
    exact .nil
  | cons a rest ih =>
    rw [mapM_cons] at collected
    obtain ⟨b, head, collected⟩ := Option.bind_eq_some_iff.mp collected
    obtain ⟨rest', tail, same⟩ := Option.bind_eq_some_iff.mp collected
    cases same
    exact .cons head (ih tail)

theorem getElem?_of_mapM {l' : List β} (collected : l.mapM g = some l') {n : Nat} {b : β}
    (found : l'[n]? = some b) : ∃ a, l[n]? = some a ∧ g a = some b := by
  have pairs := forall₂_of_mapM collected
  obtain ⟨inside, rfl⟩ := List.getElem?_eq_some_iff.mp found
  have inside' : n < l.length := pairs.length_eq ▸ inside
  exact ⟨l[n], getElem?_eq_getElem inside', (forall₂_iff_get.mp pairs).2 n inside' inside⟩

theorem getElem?_mapM {l' : List β} (collected : l.mapM g = some l') {n : Nat} {a : α}
    (there : l[n]? = some a) : ∃ b, g a = some b ∧ l'[n]? = some b := by
  have pairs := forall₂_of_mapM collected
  obtain ⟨inside, rfl⟩ := List.getElem?_eq_some_iff.mp there
  have inside' : n < l'.length := pairs.length_eq ▸ inside
  exact ⟨l'[n], (forall₂_iff_get.mp pairs).2 n inside inside', getElem?_eq_getElem inside'⟩

end Loops

end Collect
