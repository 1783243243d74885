import AndroidKernel.Binder.ObjectCases
import Mathlib.Order.Interval.Finset.Nat

/-!
# Handles

`binder_get_ref_for_node` walks the descriptors of a process in increasing order and takes the
first gap. Descriptors have 32 bits, so the walk ends at a free one because the references of a
process do not fill the memory of the machine.
-/

namespace AndroidKernel.Binder

open Function Heap List

theorem pairwise_orderedInsert {key : Id → ℕ} {l : List Id} {r : Id}
    (hl : (l.map key).Pairwise (· < ·)) (hr : key r ∉ l.map key) :
    ((l.orderedInsert (fun a b => key a ≤ key b) r).map key).Pairwise (· < ·) := by
  induction l with
  | nil => simp
  | cons a l ih =>
    rw [map_cons, pairwise_cons] at hl
    rw [map_cons, mem_cons, not_or] at hr
    unfold List.orderedInsert
    split_ifs with hle
    · simp only [map_cons, pairwise_cons, forall_mem_cons]
      have hlt : key r < key a := by omega
      exact ⟨⟨hlt, fun d hd => hlt.trans (hl.1 d hd)⟩, hl⟩
    · rw [map_cons, pairwise_cons]
      refine ⟨fun d hd => ?_, ih hl.2 hr.2⟩
      obtain ⟨b, hb, rfl⟩ := List.mem_map.mp hd
      rcases (mem_orderedInsert _).mp hb with rfl | hb
      · omega
      · exact hl.1 _ (mem_map_of_mem hb)

namespace Objs

/-- The descriptors in use in a process. -/
def descs (s : Objs) (p : Id) : List ℕ := (s.refsByDesc p).map s.refKey

/-- `proc->refs_by_desc` has references of the process, ordered by different descriptors. -/
structure RefTree (s : Objs) (p : Id) : Prop where
  live : ∀ r ∈ s.refsByDesc p, ∃ ref, s.refs.cell r = some ref ∧ ref.proc = p
  sorted : (s.descs p).Pairwise (· < ·)

variable {s s' : Objs} {p n r q : Id} {node : Node}

theorem RefTree.inj (h : s.RefTree p) {r' : Id} (hr : r ∈ s.refsByDesc p)
    (hr' : r' ∈ s.refsByDesc p) (hkey : s.refKey r = s.refKey r') : r = r' :=
  inj_on_of_nodup_map (h.sorted.imp fun hlt => hlt.ne) hr hr' hkey

theorem refs_addRef (desc : ℕ) {ref : Ref} (href : s.refs.cell r = some ref) :
    (s.addRef p n node desc).refs.cell r = some ref := by
  have hne : r ≠ s.refs.next := (lt_next_of_cell href).ne
  simp [addRef, cell_alloc, hne, href]

theorem descs_congr (hlist : s'.refsByDesc q = s.refsByDesc q)
    (hcell : ∀ r ∈ s.refsByDesc q, s'.refs.cell r = s.refs.cell r) : s'.descs q = s.descs q := by
  unfold descs
  rw [hlist]
  exact map_congr_left fun r hr => by simp [refKey, hcell r hr]

theorem RefTree.addRef {desc : ℕ} (h : s.RefTree q) (hp : s.RefTree p)
    (hdesc : desc ∉ s.descs p) : (s.addRef p n node desc).RefTree q := by
  have hcell : ∀ r ∈ s.refsByDesc q, (s.addRef p n node desc).refs.cell r = s.refs.cell r := by
    intro r hr
    obtain ⟨ref, href, -⟩ := h.live r hr
    rw [refs_addRef desc href, href]
  rcases eq_or_ne q p with rfl | hne
  · have hlist : (s.addRef q n node desc).refsByDesc q = (s.refsByDesc q).orderedInsert
        (fun a b => (s.addRef q n node desc).refKey a ≤ (s.addRef q n node desc).refKey b)
        s.refs.next := by
      simp only [Objs.addRef, update_self]
      rfl
    have hnew : (s.addRef q n node desc).refKey s.refs.next = desc := by
      simp [Objs.addRef, refKey, cell_alloc]
    have hkeys : (s.refsByDesc q).map (s.addRef q n node desc).refKey = s.descs q :=
      map_congr_left fun r hr => by simp [refKey, hcell r hr]
    refine ⟨fun r hr => ?_, ?_⟩
    · rw [hlist] at hr
      rcases (mem_orderedInsert _).mp hr with rfl | hr
      · exact ⟨⟨q, n, desc, 0, 0, none⟩, by simp [Objs.addRef, cell_alloc], rfl⟩
      · rw [hcell r hr]
        exact h.live r hr
    · unfold descs
      rw [hlist]
      refine pairwise_orderedInsert ?_ ?_
      · rw [hkeys]
        exact h.sorted
      · rwa [hkeys, hnew]
  · have hlist : (s.addRef p n node desc).refsByDesc q = s.refsByDesc q := by
      simp [Objs.addRef, hne]
    refine ⟨fun r hr => ?_, ?_⟩
    · rw [hlist] at hr
      rw [hcell r hr]
      exact h.live r hr
    · rw [descs_congr hlist hcell]
      exact h.sorted

theorem RefTree.deleteRef (h : s.RefTree q) (hdelete : DeleteRef s r s') : s'.RefTree q := by
  cases hdelete with
  | @mk ref node t href hnode hchange _ =>
    obtain ⟨hrefs, -, hdesc, -⟩ := hchange.frame
    have hsub : ((t.forgetRef r ref).refsByDesc q).Sublist (s.refsByDesc q) := by
      simp only [forgetRef, hdesc, update_apply]
      split_ifs with hq
      · rw [hq]
        exact erase_sublist
      · exact .refl _
    have hne : ∀ r' ∈ (t.forgetRef r ref).refsByDesc q, r' ≠ r := by
      rintro r' hr' rfl
      obtain ⟨ref', href', rfl⟩ := h.live r' (hsub.subset hr')
      obtain rfl : ref' = ref := Option.some.inj (href'.symm.trans href)
      have hnodup : (s.refsByDesc ref'.proc).Nodup :=
        List.Nodup.of_map _ (h.sorted.imp fun hlt => hlt.ne)
      simp only [forgetRef, hdesc, update_self] at hr'
      exact hnodup.not_mem_erase hr'
    have hcell : ∀ r' ∈ (t.forgetRef r ref).refsByDesc q,
        (t.forgetRef r ref).refs.cell r' = s.refs.cell r' := fun r' hr' => by
      simp [forgetRef, cell_free, hrefs, hne r' hr']
    refine ⟨fun r' hr' => ?_, ?_⟩
    · rw [hcell r' hr']
      exact h.live r' (hsub.subset hr')
    · have hkeys : (t.forgetRef r ref).descs q =
          ((t.forgetRef r ref).refsByDesc q).map s.refKey :=
        map_congr_left fun r' hr' => by simp [refKey, hcell r' hr']
      rw [hkeys]
      exact h.sorted.sublist (hsub.map _)

end Objs

end AndroidKernel.Binder
