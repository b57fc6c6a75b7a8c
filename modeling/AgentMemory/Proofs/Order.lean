import AgentMemory.Batching.Basic
import Mathlib.Data.List.Induction
import Mathlib.Data.List.Nodup

/-!
# Order and identity of events

`Before` says that one event stands before another in a sequence. When ids are distinct an event is
told by its id, and `Before` is a strict order that every part of the sequence inherits.
-/

namespace AgentMemory

open Batching (ids)

/-! ## Ids -/

namespace Batching

theorem mem_ids {events : List Event} {id : EventId} :
    id ∈ ids events ↔ ∃ e ∈ events, e.id = id := by
  simp only [ids, List.mem_map]

theorem id_mem_ids {events : List Event} {e : Event} (he : e ∈ events) : e.id ∈ ids events :=
  mem_ids.mpr ⟨e, he, rfl⟩

theorem ids_append (xs ys : List Event) : ids (xs ++ ys) = ids xs ++ ids ys := List.map_append

theorem eq_of_id_eq {events : List Event} (hdistinct : (ids events).Nodup) {x y : Event}
    (hx : x ∈ events) (hy : y ∈ events) (hid : x.id = y.id) : x = y :=
  List.inj_on_of_nodup_map hdistinct hx hy hid

theorem nodup_of_ids {events : List Event} (hdistinct : (ids events).Nodup) : events.Nodup :=
  List.Nodup.of_map _ hdistinct

theorem id_mem_ids_iff {events part : List Event} (hdistinct : (ids events).Nodup)
    (hpart : part ⊆ events) {e : Event} (he : e ∈ events) : e.id ∈ ids part ↔ e ∈ part := by
  refine ⟨fun hid => ?_, id_mem_ids⟩
  obtain ⟨x, hx, hxe⟩ := mem_ids.mp hid
  rwa [← eq_of_id_eq hdistinct (hpart hx) he hxe]

end Batching

/-! ## Order -/

/-- An event stands before another. -/
def Before (events : List Event) (x y : Event) : Prop := [x, y].Sublist events

namespace Before

variable {events part before after : List Event} {x y : Event}

theorem mem_left (h : Before events x y) : x ∈ events := h.subset (by simp)

theorem mem_right (h : Before events x y) : y ∈ events := h.subset (by simp)

theorem of_sublist (hpart : part.Sublist events) (h : Before part x y) : Before events x y :=
  h.trans hpart

theorem of_split (hy : y ∈ after) : Before (before ++ x :: after) x y :=
  ((List.singleton_sublist.mpr hy).cons_cons x).trans (List.sublist_append_right _ _)

theorem split (h : Before events x y) :
    ∃ before after, events = before ++ x :: after ∧ y ∈ after := by
  induction events with
  | nil => simp [Before] at h
  | cons e events ih =>
    cases h with
    | cons _ h =>
      obtain ⟨before, after, rfl, hy⟩ := ih h
      exact ⟨e :: before, after, rfl, hy⟩
    | cons_cons _ h => exact ⟨[], events, rfl, List.singleton_sublist.mp h⟩

theorem append_iff :
    Before (before ++ after) x y ↔
      Before before x y ∨ (x ∈ before ∧ y ∈ after) ∨ Before after x y := by
  constructor
  · intro h
    obtain ⟨xs, ys, hsplit, hy⟩ := h.split
    rcases List.append_eq_append_iff.mp hsplit with ⟨zs, rfl, rfl⟩ | ⟨zs, rfl, hzs⟩
    · exact Or.inr (Or.inr (of_split hy))
    · cases zs with
      | nil =>
        rw [List.nil_append] at hzs
        exact Or.inr (Or.inr (hzs ▸ @of_split [] _ _ _ hy))
      | cons z zs =>
        obtain ⟨rfl, rfl⟩ := List.cons.inj hzs
        rcases List.mem_append.mp hy with hy | hy
        · exact Or.inl (of_split hy)
        · exact Or.inr (Or.inl ⟨by simp, hy⟩)
  · rintro (h | ⟨hx, hy⟩ | h)
    · exact h.of_sublist (List.sublist_append_left _ _)
    · exact (List.singleton_sublist.mpr hx).append (List.singleton_sublist.mpr hy)
    · exact h.of_sublist (List.sublist_append_right _ _)

theorem of_mem (hx : x ∈ before) (hy : y ∈ after) : Before (before ++ after) x y :=
  append_iff.mpr (Or.inr (Or.inl ⟨hx, hy⟩))

theorem total (hx : x ∈ events) (hy : y ∈ events) (hne : x ≠ y) :
    Before events x y ∨ Before events y x := by
  obtain ⟨before, after, rfl⟩ := List.append_of_mem hx
  rcases List.mem_append.mp hy with hy | hy
  · exact Or.inr (append_iff.mpr (Or.inr (Or.inl ⟨hy, by simp⟩)))
  · rcases List.mem_cons.mp hy with rfl | hy
    · exact absurd rfl hne
    · exact Or.inl (of_split hy)

theorem ne (hnodup : events.Nodup) (h : Before events x y) : x ≠ y := by
  rintro rfl
  simpa using hnodup.sublist h

theorem asymm (hnodup : events.Nodup) (h : Before events x y) : ¬ Before events y x := by
  intro h'
  obtain ⟨before, after, rfl, hy⟩ := h.split
  obtain ⟨-, hafter, hdisjoint⟩ := List.nodup_append.mp hnodup
  have hx : x ∉ after := (List.nodup_cons.mp hafter).1
  rcases append_iff.mp h' with h' | ⟨hy', -⟩ | h'
  · exact hdisjoint _ h'.mem_left _ (by simp [hy]) rfl
  · exact hdisjoint _ hy' _ (by simp [hy]) rfl
  · cases h' with
    | cons _ h' => exact hx (mem_right h')
    | cons_cons _ h' => exact hx hy

theorem mem_of_split (hnodup : (before ++ x :: after).Nodup)
    (h : Before (before ++ x :: after) y x) : y ∈ before := by
  obtain ⟨-, hafter, hdisjoint⟩ := List.nodup_append.mp hnodup
  have hx : x ∉ after := (List.nodup_cons.mp hafter).1
  rcases append_iff.mp h with h | ⟨hy, -⟩ | h
  · exact absurd rfl (hdisjoint x h.mem_right x (by simp))
  · exact hy
  · cases h with
    | cons _ h => exact absurd (mem_right h) hx
    | cons_cons _ h => exact absurd (List.singleton_sublist.mp h) hx

theorem mem_after_of_split (hnodup : (before ++ x :: after).Nodup)
    (h : Before (before ++ x :: after) x y) : y ∈ after := by
  obtain ⟨-, hafter, hdisjoint⟩ := List.nodup_append.mp hnodup
  have hx : x ∉ after := (List.nodup_cons.mp hafter).1
  rcases append_iff.mp h with h | ⟨hx', -⟩ | h
  · exact absurd rfl (hdisjoint x h.mem_left x (by simp))
  · exact absurd rfl (hdisjoint x hx' x (by simp))
  · cases h with
    | cons _ h => exact absurd (mem_left h) hx
    | cons_cons _ h => exact List.singleton_sublist.mp h

theorem restrict (hnodup : events.Nodup) (hpart : part.Sublist events) (hx : x ∈ part)
    (hy : y ∈ part) (h : Before events x y) : Before part x y := by
  rcases total hx hy (h.ne hnodup) with h' | h'
  · exact h'
  · exact absurd (h'.of_sublist hpart) (h.asymm hnodup)

theorem mem_of_mem_left (hnodup : (before ++ after).Nodup) (h : Before (before ++ after) x y)
    (hy : y ∈ before) : x ∈ before := by
  rcases append_iff.mp h with h | ⟨hx, -⟩ | h
  · exact h.mem_left
  · exact hx
  · exact absurd rfl ((List.nodup_append.mp hnodup).2.2 _ hy _ h.mem_right)

end Before

theorem eq_of_sublist_of_mem_iff {events xs ys : List Event} (hnodup : events.Nodup)
    (hxs : xs.Sublist events) (hys : ys.Sublist events) (h : ∀ e, e ∈ xs ↔ e ∈ ys) : xs = ys := by
  induction hxs generalizing ys with
  | slnil => exact (List.sublist_nil.mp hys).symm
  | @cons xs events e hxs ih =>
    obtain ⟨he, hnodup⟩ := List.nodup_cons.mp hnodup
    cases hys with
    | cons _ hys => exact ih hnodup hys h
    | cons_cons _ hys => exact absurd (hxs.subset ((h e).mpr (by simp))) he
  | @cons_cons xs events e hxs ih =>
    obtain ⟨he, hnodup⟩ := List.nodup_cons.mp hnodup
    cases hys with
    | cons _ hys => exact absurd (hys.subset ((h e).mp (by simp))) he
    | @cons_cons ys _ _ hys =>
      rw [ih hnodup hys fun x => ?_]
      have hx := h x
      simp only [List.mem_cons] at hx
      constructor
      · intro hmem
        exact (hx.mp (Or.inr hmem)).resolve_left fun hxe => he (hxe ▸ hxs.subset hmem)
      · intro hmem
        exact (hx.mpr (Or.inr hmem)).resolve_left fun hxe => he (hxe ▸ hys.subset hmem)

end AgentMemory
