import AndroidKernel.Ids.Remove

/-!
# Runs of the id allocator

Over every sequence of calls an id tree is a finite map from ids to pointers, as long as each new id
is asked for where there is a free one below `2 ^ 30`. The tree has at most six layers of five bits,
so an id above has no place of its own.
-/

namespace AndroidKernel.Ids

open Function

variable {ι : Type} {idp : Idr ι}

/-- The calls. The number of allocations that succeed is the memory's answer to `idr_pre_get`. -/
inductive Call (ι : Type) where
  | preGet (grants : ℕ)
  | getNewAbove (ptr : Option ι) (startingId : Fin (2 ^ 31))
  | remove (id : Fin (2 ^ 31))
  | replace (ptr : Option ι) (id : Fin (2 ^ 31))
  | find (id : Fin (2 ^ 31))

/-- What a call returns. -/
inductive Reply (ι : Type) where
  | done (ok : Bool)
  | id (r : Except ℤ ℕ)
  | old (r : Except ℤ (Option ι))
  | ptr (x : Option ι)

/-- A call; `none` is a crash. -/
def Idr.step (idp : Idr ι) : Call ι → Option (Idr ι × Reply ι)
  | .preGet grants => some ((idrPreGet grants idp).2, .done (idrPreGet grants idp).1)
  | .getNewAbove ptr startingId => (idrGetNewAbove ptr startingId idp).map fun r => (r.2, .id r.1)
  | .remove id => (idrRemove id idp).map fun idp => (idp, .done true)
  | .replace ptr id => (idrReplace id ptr idp).map fun r => (r.2, .old r.1)
  | .find id => (idrFind id idp).map fun x => (idp, .ptr x)

/-- `idr_init` -/
def Idr.init : Idr ι := ⟨.null, 0, []⟩

/-- A new id is asked for where there is a free one below `2 ^ 30`; an id is removed when it is
there. -/
def Idr.Meets (idp : Idr ι) : Call ι → Prop
  | .getNewAbove _ startingId => ∃ i, startingId.val ≤ i ∧ i < 2 ^ 30 ∧ idp.map i = none
  | .remove id => idp.map id ≠ none
  | _ => True

/-- The states that calls lead to. -/
inductive Reachable : Idr ι → Prop
  | init : Reachable .init
  | step {idp idp' : Idr ι} {call : Call ι} {reply : Reply ι} (h : Reachable idp)
      (hcall : idp.Meets call) (hstep : idp.step call = some (idp', reply)) : Reachable idp'

/-- What a call does to the map, and what is found after it. -/
def Obeys (idp : Idr ι) : Call ι → Reply ι → Idr ι → Prop
  | .preGet _, _, idp' => idp'.map = idp.map
  | .getNewAbove ptr startingId, reply, idp' =>
    ((reply = .id (.error eagain) ∨ reply = .id (.error enospc)) ∧ idp'.map = idp.map) ∨
    ∃ id, reply = .id (.ok id) ∧ IsLeast {i | startingId.val ≤ i ∧ idp.map i = none} id ∧
      idp'.map = update idp.map id (some ptr) ∧ idrFind id idp' = some ptr ∧
      ∀ j : Fin (2 ^ 31), j.val ≠ id → idrFind j idp' = idrFind j idp
  | .remove id, _, idp' => idp'.map = update idp.map id none
  | .replace ptr id, reply, idp' =>
    ((∃ e, reply = .old (.error e)) ∧ idp.map id = none ∧ idp'.map = idp.map) ∨
    ∃ x, reply = .old (.ok x) ∧ idp.map id = some x ∧ idp'.map = update idp.map id (some ptr)
  | .find id, reply, idp' => reply = .ptr (idp.map id).join ∧ idp' = idp

theorem preGetLoop_blank {free : List (Layer (Slot ι))} (grants : ℕ)
    (hfree : ∀ q ∈ free, q.Blank) : ∀ q ∈ (preGetLoop grants free).2, q.Blank := by
  induction grants generalizing free with
  | zero => exact hfree
  | succ grants ih =>
    rw [preGetLoop]
    split_ifs
    · refine ih fun q hq => ?_
      rcases List.mem_cons.mp hq with rfl | hq
      · exact ⟨rfl, fun _ => rfl, fun _ => rfl⟩
      · exact hfree q hq
    · exact hfree

/-- An id that is there is below `2 ^ 30`. -/
theorem Idr.Intact.lt_of_map {i : ℕ} (h : idp.Intact) (hi : idp.map i ≠ none) : i < 2 ^ 30 := by
  by_contra hge
  refine hi (if_neg fun hlt => ?_)
  have := pow_layers_le h.layers_le
  omega

theorem Idr.Intact.step (h : idp.Intact) (call : Call ι) (hcall : idp.Meets call) :
    ∃ idp' reply, idp.step call = some (idp', reply) ∧ idp'.Intact ∧ Obeys idp call reply idp' := by
  cases call with
  | preGet grants => exact ⟨_, _, rfl, ⟨h.layers_le, h.tree, preGetLoop_blank grants h.clean⟩, rfl⟩
  | getNewAbove ptr startingId =>
    obtain ⟨r, idp', heq, hintact, hout⟩ := idrGetNewAbove_spec ptr h hcall
    refine ⟨idp', .id r, by rw [Idr.step, heq]; rfl, hintact, ?_⟩
    rcases hout with ⟨rfl, hmap⟩ | ⟨id, rfl, hleast, hmap⟩
    · exact .inl ⟨.inl rfl, hmap⟩
    · have hid : id < 2 ^ 30 := hintact.lt_of_map (by simp [hmap])
      refine .inr ⟨id, rfl, hleast, hmap, ?_, fun j hj => ?_⟩
      · rw [idrFind_spec hintact (by omega), hmap, update_self]
        rfl
      · rw [idrFind_spec hintact j.isLt, idrFind_spec h j.isLt, hmap, update_of_ne hj]
  | remove id =>
    obtain ⟨idp', heq, hintact, hmap⟩ := idrRemove_spec h hcall id.isLt
    exact ⟨idp', .done true, by rw [Idr.step, heq]; rfl, hintact, hmap⟩
  | replace ptr id =>
    obtain ⟨r, idp', heq, hintact, hout⟩ := idrReplace_spec ptr h id.isLt
    refine ⟨idp', .old r, by rw [Idr.step, heq]; rfl, hintact, ?_⟩
    rcases hout with ⟨⟨e, rfl⟩, hnone, hmap⟩ | ⟨x, rfl, hx, hmap⟩
    · exact .inl ⟨⟨e, rfl⟩, hnone, hmap⟩
    · exact .inr ⟨x, rfl, hx, hmap⟩
  | find id =>
    exact ⟨idp, .ptr (idp.map id).join, by rw [Idr.step, idrFind_spec h id.isLt]; rfl, h, rfl, rfl⟩

theorem Reachable.intact (h : Reachable idp) : idp.Intact := by
  induction h with
  | init => exact ⟨Nat.zero_le _, .inl rfl, by simp [Idr.init]⟩
  | step _ hcall hstep ih =>
    obtain ⟨idp', reply, heq, hintact, -⟩ := ih.step _ hcall
    rw [hstep] at heq
    obtain ⟨rfl, rfl⟩ : _ = idp' ∧ _ = reply := by simpa using heq
    exact hintact

/-- In every state that is reached, each call returns and does to the map what it should. A new id
is the least free one from the starting id on; it is found afterwards, and all others are found as
before. -/
theorem new_id_least_and_found {idp : Idr ι} (h : Reachable idp) (call : Call ι)
    (hcall : idp.Meets call) :
    ∃ idp' reply, idp.step call = some (idp', reply) ∧ Obeys idp call reply idp' := by
  obtain ⟨idp', reply, heq, -, hobeys⟩ := h.intact.step call hcall
  exact ⟨idp', reply, heq, hobeys⟩

/-- An id is asked for from 100 on in a tree where 100 and 102 are taken: it is 101, it is found,
and the others are found as before. -/
theorem new_id_least_and_found_between : ∃ idp idp' : Idr ℕ,
    idp.map 100 = some (some 5) ∧ idp.map 102 = some (some 6) ∧
    idp.step (.getNewAbove (some 7) 100) = some (idp', .id (.ok 101)) ∧
    IsLeast {i | 100 ≤ i ∧ idp.map i = none} 101 ∧ idrFind 101 idp' = some (some 7) ∧
    ∀ j : Fin (2 ^ 31), j.val ≠ 101 → idrFind j idp' = idrFind j idp := by
  let spare : Idr ℕ := (idrPreGet 14 .init).2
  have hspare : Reachable spare := @Reachable.step _ _ _ (.preGet 14) _ .init trivial rfl
  have hmeets (start : Fin (2 ^ 31)) (idp : Idr ℕ) (hlt : start.val < 2 ^ 30)
      (h : idp.map start = none) (x : ℕ) : idp.Meets (.getNewAbove (some x) start) :=
    ⟨start, le_rfl, hlt, h⟩
  obtain ⟨⟨first, r₁⟩, h₁, hfirst⟩ := Option.map_eq_some_iff.mp
    (by decide +kernel : (spare.step (.getNewAbove (some 5) 100)).map
      (fun r => r.1.map 102) = some none)
  have hfacts : ((spare.step (.getNewAbove (some 5) 100)).bind fun r =>
      r.1.step (.getNewAbove (some 6) 102)).map (fun r => (r.1.map 100, r.1.map 101, r.1.map 102,
        (idrGetNewAbove (some 7) 100 r.1).map fun r => r.1.toOption)) =
      some (some (some 5), none, some (some 6), some (some 101)) := by
    decide +kernel
  rw [h₁] at hfacts
  obtain ⟨⟨second, r₂⟩, h₂, hsecond⟩ := Option.map_eq_some_iff.mp hfacts
  simp only [Prod.mk.injEq] at hsecond
  have hreach : Reachable second :=
    (hspare.step (hmeets 100 spare (by decide) (by decide +kernel) 5) h₁).step
      (hmeets 102 first (by decide) hfirst 6) h₂
  obtain ⟨third, reply, hstep, hobeys⟩ := new_id_least_and_found hreach (.getNewAbove (some 7) 100)
    ⟨101, by decide, by decide, hsecond.2.1⟩
  obtain ⟨⟨r, third'⟩, hget, hr⟩ := Option.map_eq_some_iff.mp hsecond.2.2.2
  have heq : (third', Reply.id r) = (third, reply) := by
    rw [Idr.step, show ((100 : Fin (2 ^ 31)) : ℕ) = 100 from rfl, hget] at hstep
    exact Option.some.inj hstep
  obtain ⟨rfl, rfl⟩ := Prod.mk.inj heq
  rcases hobeys with ⟨herror, -⟩ | ⟨id, hid, hleast, -, hfind, hothers⟩
  · rcases herror with herror | herror <;> cases herror <;> cases hr
  · cases hid
    obtain rfl : id = 101 := Option.some.inj hr
    exact ⟨second, third', hsecond.1, hsecond.2.2.1, hstep, hleast, hfind, hothers⟩

/-- An id is asked for from `2 ^ 30` on, in an empty tree with layers to spare. The call returns
`2 ^ 30`, but the pointer is found at 0 and not at that id. -/
theorem high_id_not_found :
    (idrGetNewAbove (some 7) (2 ^ 30) (idrPreGet 14 (Idr.init : Idr ℕ)).2).map
      (fun r => (r.1.toOption, idrFind (2 ^ 30) r.2, idrFind 0 r.2)) =
        some (some (2 ^ 30), some none, some (some 7)) ∧
    idrFind 0 (idrPreGet 14 (Idr.init : Idr ℕ)).2 = some none := by
  decide +kernel

end AndroidKernel.Ids
