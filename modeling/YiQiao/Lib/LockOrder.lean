import Mathlib.Data.Finset.Max
import Mathlib.Data.List.Basic

/-!
# Locks taken in order

Clients that wait for a lock only when it ranks above all that they hold do not wait for each other in a circle.
-/

namespace YiQiao.Lib

/-- What a client of locks holds, and which one it waits for. -/
structure Claimant (κ : Type) where
  held : List κ
  wants : Option κ

variable {κ ρ : Type} [LinearOrder ρ] (rank : κ → ρ)

def Claimant.Ordered (client : Claimant κ) : Prop := ∀ lock ∈ client.wants, ∀ other ∈ client.held, rank other < rank lock

/-- One of the clients waits for nothing that any of them holds. -/
theorem some_client_goes_on {clients : List (Claimant κ)} (hne : clients ≠ []) (h : ∀ client ∈ clients, client.Ordered rank) :
    ∃ client ∈ clients, ∀ lock ∈ client.wants, ∀ other ∈ clients, lock ∉ other.held := by
  by_contra hstuck
  have hwaits : ∀ client ∈ clients, ∃ lock ∈ client.wants, ∃ other ∈ clients, lock ∈ other.held := by
    intro client hclient
    by_contra hfree
    refine hstuck ⟨client, hclient, fun lock hlock other hother hheld => hfree ⟨lock, hlock, other, hother, hheld⟩⟩
  -- the highest rank that is waited for is held by a client that waits for a higher one
  obtain ⟨first, rest, rfl⟩ := List.exists_cons_of_ne_nil hne
  obtain ⟨lock, hlock, -⟩ := hwaits first List.mem_cons_self
  have hwanted : (((first :: rest).filterMap Claimant.wants).map rank).toFinset.Nonempty :=
    ⟨rank lock, List.mem_toFinset.mpr
      (List.mem_map_of_mem (List.mem_filterMap.mpr ⟨first, List.mem_cons_self, hlock⟩))⟩
  obtain ⟨top, htop, hmax⟩ := Finset.exists_max_image _ id hwanted
  obtain ⟨topLock, htopLock, rfl⟩ := List.mem_map.mp (List.mem_toFinset.mp htop)
  obtain ⟨waiting, hwaiting, hwants⟩ := List.mem_filterMap.mp htopLock
  obtain ⟨lock', hlock', holder, hholder, hheld⟩ := hwaits waiting hwaiting
  have htop' : lock' = topLock := Option.some.inj ((Option.mem_def.mp hlock').symm.trans hwants)
  subst htop'
  obtain ⟨next, hnext, -⟩ := hwaits holder hholder
  have hlt : rank lock' < rank next := h holder hholder next hnext lock' hheld
  have hle : rank next ≤ rank lock' :=
    hmax _ (List.mem_toFinset.mpr (List.mem_map_of_mem (List.mem_filterMap.mpr ⟨holder, hholder, hnext⟩)))
  exact absurd hlt (not_lt.mpr hle)

end YiQiao.Lib
