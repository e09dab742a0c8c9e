import Mathlib.Data.List.Induction
import Mathlib.Data.List.Nodup

/-!
# Keyed lists

The entries of a list carry keys, as entities and siblings carry names. If no two entries share a
key, then a look-up finds every entry by its key. Entries that are filed under their keys are still
all there.
-/

namespace Prefetch

variable {α β : Type}

theorem exists_find?_key (key : α → String) {xs : List α} {x : α} (h : x ∈ xs) :
    ∃ first, xs.find? (key · == key x) = some first := by
  apply Option.isSome_iff_exists.mp
  exact List.find?_isSome.mpr ⟨x, h, beq_self_eq_true (key x)⟩

theorem find?_key_eq_some_iff {key : α → String} {xs : List α} (hnodup : (xs.map key).Nodup)
    {k : String} {x : α} : xs.find? (key · == k) = some x ↔ x ∈ xs ∧ key x = k := by
  constructor
  · intro h
    exact ⟨List.mem_of_find?_eq_some h, by simpa using List.find?_some h⟩
  · intro h
    obtain ⟨hmem, rfl⟩ := h
    obtain ⟨first, hfirst⟩ := exists_find?_key key hmem
    have hkey : key first = key x := by simpa using List.find?_some hfirst
    have heq : first = x :=
      List.inj_on_of_nodup_map hnodup (List.mem_of_find?_eq_some hfirst) hmem hkey
    rw [hfirst, heq]

theorem nodup_map_iff_forall_split {key : α → β} {xs : List α} :
    (xs.map key).Nodup ↔ ∀ before x after, xs = before ++ x :: after →
      ∀ earlier ∈ before, key earlier ≠ key x := by
  constructor
  · intro h before x after hxs earlier hearlier
    rw [hxs, List.map_append, List.map_cons] at h
    exact (List.nodup_append.mp h).2.2 _ (List.mem_map_of_mem hearlier) _ List.mem_cons_self
  · intro h
    induction xs using List.reverseRecOn with
    | nil => exact List.nodup_nil
    | append_singleton init last ih =>
      have hinit : (init.map key).Nodup := by
        apply ih
        intro before x after hinit
        exact h before x (after ++ [last]) (by rw [hinit, List.append_assoc, List.cons_append])
      have hlast := h init last [] rfl
      rw [List.map_append, List.map_singleton]
      refine List.nodup_append.mpr ⟨hinit, List.nodup_singleton _, ?_⟩
      intro a ha b hb
      obtain ⟨earlier, hearlier, rfl⟩ := List.mem_map.mp ha
      rw [List.mem_singleton.mp hb]
      exact hlast earlier hearlier

/-- Entries are put together again from the lists that hold those of one key each. -/
theorem perm_flatMap_filter (key : α → String) {keys : List String}
    (hnodup : keys.Nodup) {xs : List α} (h : ∀ x ∈ xs, key x ∈ keys) :
    (keys.flatMap fun k => xs.filter (key · == k)).Perm xs := by
  induction keys generalizing xs with
  | nil =>
    cases xs with
    | nil => exact List.Perm.refl _
    | cons x xs => exact absurd (h x List.mem_cons_self) List.not_mem_nil
  | cons k keys ih =>
    obtain ⟨hk, hrest⟩ := List.nodup_cons.mp hnodup
    have hothers : ∀ x ∈ xs.filter (fun x => !(key x == k)), key x ∈ keys := by
      intro x hx
      obtain ⟨hmem, hne⟩ := List.mem_filter.mp hx
      apply (List.mem_cons.mp (h x hmem)).resolve_left
      simpa using hne
    -- under the other keys nothing is lost if the entries of the first are left out
    have hsame : (keys.flatMap fun k' => xs.filter (key · == k')) =
        keys.flatMap fun k' => (xs.filter fun x => !(key x == k)).filter (key · == k') := by
      apply List.flatMap_congr
      intro k' hk'
      rw [List.filter_filter]
      apply List.filter_congr
      intro x _
      by_cases hx : key x = k'
      · have hne : k' ≠ k := by
          intro heq
          exact hk (heq ▸ hk')
        simp [hx, hne]
      · simp [hx]
    rw [List.flatMap_cons, hsame]
    exact ((ih hrest hothers).append_left _).trans (List.filter_append_perm _ _)

end Prefetch
