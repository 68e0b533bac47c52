import ToyDfba.Spec.Auction
import ToyDfba.Spec.Clearing

/-! The references an auction takes into the queue's vector: which orders they point
to, and what the vector holds once they are given back. -/

namespace ToyDfba

def OrderRef.update (f : Order → Order) (r : OrderRef) : OrderRef := { r with order := f r.order }

@[simp] theorem OrderRef.update_slot (f : Order → Order) (r : OrderRef) :
    (r.update f).slot = r.slot := rfl

@[simp] theorem OrderRef.update_order (f : Order → Order) (r : OrderRef) :
    (r.update f).order = f r.order := rfl

theorem iterMut_order (orders : List Order) : (iterMut orders).map OrderRef.order = orders := by
  simp only [iterMut, List.map_map]
  exact List.zipIdx_map_fst 0 orders

theorem iterMut_slot (orders : List Order) :
    (iterMut orders).map OrderRef.slot = List.range orders.length := by
  simp only [iterMut, List.map_map, List.range_eq_range']
  exact List.zipIdx_map_snd 0 orders

theorem mem_iterMut {orders : List Order} {r : OrderRef} :
    r ∈ iterMut orders ↔ orders[r.slot]? = some r.order := by
  simp only [iterMut, List.mem_map, Prod.exists]
  refine ⟨fun ⟨o, i, hmem, he⟩ => ?_, fun h => ⟨r.order, r.slot, ?_, rfl⟩⟩
  · subst he
    exact List.mem_zipIdx_iff_getElem?.mp hmem
  · exact List.mem_zipIdx_iff_getElem?.mpr h

theorem foldl_splitStep (refs : List OrderRef) (acc : List OrderRef × List OrderRef) :
    refs.foldl splitStep acc =
      (acc.1 ++ refs.filter (fun r => r.order.liveMaker),
        acc.2 ++ refs.filter (fun r => r.order.liveTaker)) := by
  induction refs generalizing acc with
  | nil => simp
  | cons r refs ih =>
    rw [List.foldl_cons, ih]
    by_cases hlive : r.order.live
    · have hopen : ¬ (!r.order.isActive || decide (r.order.filledQuantity ≥ r.order.quantity)) := by
        simpa [Order.live] using hlive
      cases ht : r.order.orderType <;>
        simp [splitStep, hopen, ht, Order.liveMaker, Order.liveTaker, hlive]
    · have hskip : (!r.order.isActive || decide (r.order.filledQuantity ≥ r.order.quantity)) := by
        cases ha : r.order.isActive <;> simp_all [Order.live]
      simp [splitStep, hskip, Order.liveMaker, Order.liveTaker, hlive]

theorem splitOrders_eq (orders : List Order) :
    splitOrders orders = ((iterMut orders).filter (fun r => r.order.liveMaker),
      (iterMut orders).filter (fun r => r.order.liveTaker)) := by
  simp [splitOrders, foldl_splitStep]

theorem filter_iterMut_order (c : Order → Bool) (orders : List Order) :
    ((iterMut orders).filter (fun r => c r.order)).map OrderRef.order = orders.filter c := by
  conv_rhs => rw [← iterMut_order orders, List.filter_map]
  rfl

/-- Giving back the references to the orders that satisfy `c`, in whatever order and
each updated by `f`, updates exactly those orders. -/
theorem writeBack_eq {orders : List Order} {refs : List OrderRef} {c : Order → Bool}
    {f : Order → Order}
    (h : refs.Perm (((iterMut orders).filter fun r => c r.order).map (OrderRef.update f))) :
    writeBack orders refs = orders.map fun o => if c o then f o else o := by
  have hslots : (refs.map OrderRef.slot).Nodup := by
    rw [(h.map OrderRef.slot).nodup_iff, List.map_map]
    have hsub := (List.filter_sublist (p := fun r => c r.order) (l := iterMut orders)).map
      OrderRef.slot
    exact hsub.nodup (iterMut_slot orders ▸ List.nodup_range)
  have hkeys : ((refs.map fun r => (r.slot, r.order)).map Prod.fst).Nodup := by
    simpa [List.map_map, Function.comp_def] using hslots
  apply List.ext_getElem?
  intro i
  rw [List.getElem?_map]
  cases hi : orders[i]? with
  | none =>
    rw [List.getElem?_eq_none_iff] at hi
    simpa [writeBack] using hi
  | some o =>
    have hlt : i < orders.length := (List.getElem?_eq_some_iff.mp hi).1
    by_cases hc : c o
    · have hmem : (⟨i, f o⟩ : OrderRef) ∈ refs := by
        refine h.mem_iff.mpr (List.mem_map.mpr ⟨⟨i, o⟩, ?_, rfl⟩)
        exact List.mem_filter.mpr ⟨mem_iterMut.mpr hi, hc⟩
      simpa [hc, writeBack] using Loops.writeAll_getElem?_of_mem hkeys
        (List.mem_map.mpr ⟨⟨i, f o⟩, hmem, rfl⟩) hlt
    · have hnot : ∀ w ∈ refs.map fun r => (r.slot, r.order), w.1 ≠ i := by
        intro w hw he
        obtain ⟨r', hr', rfl⟩ := List.mem_map.mp hw
        obtain ⟨r, hr, rfl⟩ := List.mem_map.mp (h.mem_iff.mp hr')
        obtain ⟨hr, hcr⟩ := List.mem_filter.mp hr
        have hro : orders[i]? = some r.order := by
          have := mem_iterMut.mp hr
          rwa [show r.slot = i from he] at this
        rw [hi, Option.some.injEq] at hro
        exact hc (hro ▸ hcr)
      have hkeep : (writeBack orders refs)[i]? = orders[i]? :=
        Loops.writeAll_getElem?_of_notMem hnot
      simp [hkeep, hi, hc]

end ToyDfba
