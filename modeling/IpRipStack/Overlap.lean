import IpRipStack.RouteUpdate
import IpRipStack.Library.Runs
import Mathlib.Data.List.Nodup

/-!
# A response overlapping a command

The handling of a response that arrives on an interface and the command that takes that interface
down run in two threads, over one table. Here each of them is cut into the accesses it makes to what
they share: a call of the map, or a stretch of code under `_rlock`, is one step. The other functions
of the repository are modelled whole.

The handler tests `is_up` in `transfer_data`; for each entry `update_route_table` calls `find`, then
either writes the route or reads the entry by `operator[]`, which puts a zeroed one into the table
if there is none, and may write it after that. The command closes the interface, and the walk of
`remove_ifc_entry` begins, takes the iterator of the next entry, tests the entry it is at, and
erases it. The entries a handler has left to take up are those of `readTimed`; the address of the
interface is both the next hop the handler writes and the one the walk looks for.

The second half says once what each step does (`CommandMove`, `HandlerMove`). The iterators of the
walk stay valid whatever the handler does, so neither thread is stuck before it is done
(`finished_of_stuck`).
-/

set_option autoImplicit false
set_option relaxedAutoImplicit false

namespace IpRipStack

open OrderedMap Runs

/-- `struct entry_wts` as `operator[]` makes it. -/
def EntryWts.zeroed : EntryWts where
  e := { cost := 0, address := 0, mask := 0 }
  nextHop := 0
  ts := { tvSec := 0, tvUsec := 0 }

/-- What the handler does next: the test of `is_up`, `find` for the first of the entries that are
left, `operator[]`, or the write. It is done when it has no entry to find. -/
inductive HandlerPc
  | testing (heard : List (Entry × Timeval))
  | finding (heard : List (Entry × Timeval))
  | reading (e : Entry) (now : Timeval) (heard : List (Entry × Timeval))
  | writing (e : Entry) (now : Timeval) (heard : List (Entry × Timeval))
  deriving DecidableEq, Repr

/-- What the command does next: it closes the interface, calls `begin`, advances `next_itr`, tests
the entry at `itr`, or erases it. It is done when `itr` is at the end. -/
inductive CommandPc
  | closing
  | beginning
  | advancing (itr : Option UInt32)
  | examining (itr : UInt32) (nextItr : Option UInt32)
  | erasing (itr : UInt32) (nextItr : Option UInt32)
  deriving DecidableEq, Repr

/-- The keys at which the iterators of the walk are. -/
def CommandPc.cursors : CommandPc → List UInt32
  | .closing | .beginning => []
  | .advancing itr => itr.toList
  | .examining itr nextItr | .erasing itr nextItr => itr :: nextItr.toList

/-- The table, the up flag of the interface, and where the two threads are. -/
structure Overlap where
  rtable : RouteTable
  isup : Bool
  handler : HandlerPc
  command : CommandPc

inductive Thread
  | handler
  | command
  deriving DecidableEq, Repr

namespace Overlap

/-- A node before a response that arrives on an interface and the command that takes it down. -/
def start (node : Node) (id : ℕ) (data : List UInt8) (clock : ℕ → Timeval) : Overlap where
  rtable := node.rtable
  isup := node.isUp id
  handler := .testing (readTimed node.order (ripPayload data) clock)
  command := .closing

section Steps

variable (node : Node) (next : UInt32)

/-- The next step of `update_route_table`. -/
def handlerStep (s : Overlap) : Option Overlap :=
  match s.handler with
  | .testing heard => some { s with handler := .finding (if s.isup then heard else []) }
  | .finding [] => none
  | .finding ((e, now) :: heard) =>
    if node.isMyInterface e.address ∨ e.cost = ripMaxCost then
      some { s with handler := .finding heard }
    else
      match s.rtable[e.address]? with
      | none => some { s with handler := .writing e now heard }
      | some _ => some { s with handler := .reading e now heard }
  | .reading e now heard =>
    let ets := s.rtable.getD e.address EntryWts.zeroed
    some
      { s with
        rtable := s.rtable.insertIfNew e.address EntryWts.zeroed
        handler := if ets.e.cost > e.cost + 1 then .writing e now heard else .finding heard }
  | .writing e now heard =>
    some
      { s with
        rtable := s.rtable.insert e.address (e.route next now)
        handler := .finding heard }

/-- The next step of `down_cmd`. -/
def commandStep (s : Overlap) : Option Overlap :=
  match s.command with
  | .closing => some { s with isup := false, command := .beginning }
  | .beginning => some { s with command := .advancing (firstKey s.rtable) }
  | .advancing none => none
  | .advancing (some itr) => some { s with command := .examining itr (keyAfter s.rtable itr) }
  | .examining itr nextItr =>
    match s.rtable[itr]? with
    | none => none -- the iterator would dangle
    | some ets =>
      if ets.nextHop = next ∨ itr = next then some { s with command := .erasing itr nextItr }
      else some { s with command := .advancing nextItr }
  | .erasing itr nextItr =>
    some { s with rtable := s.rtable.erase itr, command := .advancing nextItr }

def next? (s : Overlap) : Thread → Option Overlap
  | .handler => s.handlerStep node next
  | .command => s.commandStep next

def Step (s : Overlap) (thread : Thread) (s' : Overlap) : Prop := s.next? node next thread = some s'

end Steps

/-- Both threads are done. -/
def Finished (s : Overlap) : Prop := s.handler = .finding [] ∧ s.command = .advancing none

instance (s : Overlap) : Decidable s.Finished := inferInstanceAs (Decidable (_ ∧ _))

/-! ### What a step does -/

/-- The steps of the command: it closes the interface, begins its walk, advances, picks the entry it
is at or keeps it, and erases an entry it has picked. -/
inductive CommandMove (next : UInt32) (s : Overlap) : Overlap → Prop
  | closes (hpc : s.command = .closing) :
      CommandMove next s { s with isup := false, command := .beginning }
  | begins (hpc : s.command = .beginning) :
      CommandMove next s { s with command := .advancing (firstKey s.rtable) }
  | advances (itr : UInt32) (hpc : s.command = .advancing (some itr)) :
      CommandMove next s { s with command := .examining itr (keyAfter s.rtable itr) }
  | picks (itr : UInt32) (nextItr : Option UInt32) (ets : EntryWts)
      (hpc : s.command = .examining itr nextItr) (hets : s.rtable[itr]? = some ets)
      (hmatch : ets.nextHop = next ∨ itr = next) :
      CommandMove next s { s with command := .erasing itr nextItr }
  | keeps (itr : UInt32) (nextItr : Option UInt32) (ets : EntryWts)
      (hpc : s.command = .examining itr nextItr) (hets : s.rtable[itr]? = some ets)
      (hmatch : ¬ (ets.nextHop = next ∨ itr = next)) :
      CommandMove next s { s with command := .advancing nextItr }
  | erases (itr : UInt32) (nextItr : Option UInt32) (hpc : s.command = .erasing itr nextItr) :
      CommandMove next s { s with rtable := s.rtable.erase itr, command := .advancing nextItr }

/-- The steps of the handler: it tests `is_up`, skips an entry, misses or finds the address of one
in the table, reads what it has found, and writes. -/
inductive HandlerMove (node : Node) (next : UInt32) (s : Overlap) : Overlap → Prop
  | tests (heard : List (Entry × Timeval)) (hpc : s.handler = .testing heard) :
      HandlerMove node next s { s with handler := .finding (if s.isup then heard else []) }
  | skips (e : Entry) (now : Timeval) (heard : List (Entry × Timeval))
      (hpc : s.handler = .finding ((e, now) :: heard))
      (hskip : node.isMyInterface e.address = true ∨ e.cost = ripMaxCost) :
      HandlerMove node next s { s with handler := .finding heard }
  | misses (e : Entry) (now : Timeval) (heard : List (Entry × Timeval))
      (hpc : s.handler = .finding ((e, now) :: heard))
      (hoffer : ¬ (node.isMyInterface e.address = true ∨ e.cost = ripMaxCost))
      (hnone : s.rtable[e.address]? = none) :
      HandlerMove node next s { s with handler := .writing e now heard }
  | finds (e : Entry) (now : Timeval) (heard : List (Entry × Timeval)) (ets : EntryWts)
      (hpc : s.handler = .finding ((e, now) :: heard))
      (hoffer : ¬ (node.isMyInterface e.address = true ∨ e.cost = ripMaxCost))
      (hets : s.rtable[e.address]? = some ets) :
      HandlerMove node next s { s with handler := .reading e now heard }
  | reads (e : Entry) (now : Timeval) (heard : List (Entry × Timeval))
      (hpc : s.handler = .reading e now heard) :
      HandlerMove node next s
        { s with
          rtable := s.rtable.insertIfNew e.address EntryWts.zeroed
          handler :=
            if (s.rtable.getD e.address EntryWts.zeroed).e.cost > e.cost + 1 then
              .writing e now heard
            else .finding heard }
  | writes (e : Entry) (now : Timeval) (heard : List (Entry × Timeval))
      (hpc : s.handler = .writing e now heard) :
      HandlerMove node next s
        { s with
          rtable := s.rtable.insert e.address (e.route next now)
          handler := .finding heard }

variable {node : Node} {next : UInt32}

theorem commandStep_move {s s' : Overlap} (h : s.commandStep next = some s') :
    s.CommandMove next s' := by
  unfold commandStep at h
  split at h
  next hpc =>
    obtain rfl := Option.some.inj h
    exact .closes hpc
  next hpc =>
    obtain rfl := Option.some.inj h
    exact .begins hpc
  next => exact absurd h.symm (Option.some_ne_none s')
  next itr hpc =>
    obtain rfl := Option.some.inj h
    exact .advances itr hpc
  next itr nextItr hpc =>
    split at h
    next => exact absurd h.symm (Option.some_ne_none s')
    next ets hets =>
      split_ifs at h with hmatch
      · obtain rfl := Option.some.inj h
        exact .picks itr nextItr ets hpc hets hmatch
      · obtain rfl := Option.some.inj h
        exact .keeps itr nextItr ets hpc hets hmatch
  next itr nextItr hpc =>
    obtain rfl := Option.some.inj h
    exact .erases itr nextItr hpc

theorem handlerStep_move {s s' : Overlap} (h : s.handlerStep node next = some s') :
    s.HandlerMove node next s' := by
  unfold handlerStep at h
  split at h
  next heard hpc =>
    obtain rfl := Option.some.inj h
    exact .tests heard hpc
  next => exact absurd h.symm (Option.some_ne_none s')
  next e now heard hpc =>
    split_ifs at h with hskip
    · obtain rfl := Option.some.inj h
      exact .skips e now heard hpc hskip
    · split at h
      next hnone =>
        obtain rfl := Option.some.inj h
        exact .misses e now heard hpc hskip hnone
      next ets hets =>
        obtain rfl := Option.some.inj h
        exact .finds e now heard ets hpc hskip hets
  next e now heard hpc =>
    obtain rfl := Option.some.inj h
    exact .reads e now heard hpc
  next e now heard hpc =>
    obtain rfl := Option.some.inj h
    exact .writes e now heard hpc

/-- The command leaves the handler alone, and the interface is down once it has taken a step. -/
theorem commandStep_frame {s s' : Overlap} (h : s.commandStep next = some s') :
    s'.handler = s.handler ∧ (s'.isup = true → s.isup = true ∧ s.command ≠ .closing) := by
  cases commandStep_move h with
  | closes => exact ⟨rfl, fun hup ↦ Bool.noConfusion hup⟩
  | begins hpc => exact ⟨rfl, fun hup ↦ ⟨hup, by simp [hpc]⟩⟩
  | advances itr hpc => exact ⟨rfl, fun hup ↦ ⟨hup, by simp [hpc]⟩⟩
  | picks itr nextItr ets hpc => exact ⟨rfl, fun hup ↦ ⟨hup, by simp [hpc]⟩⟩
  | keeps itr nextItr ets hpc => exact ⟨rfl, fun hup ↦ ⟨hup, by simp [hpc]⟩⟩
  | erases itr nextItr hpc => exact ⟨rfl, fun hup ↦ ⟨hup, by simp [hpc]⟩⟩

/-- The handler leaves the command alone. -/
theorem handlerStep_command {s s' : Overlap} (h : s.handlerStep node next = some s') :
    s'.command = s.command := by
  cases handlerStep_move h <;> rfl

/-- What the handler does to an entry that is there. -/
theorem handlerStep_present {s s' : Overlap} (h : s.handlerStep node next = some s') {a : UInt32}
    {ets : EntryWts} (hets : s.rtable[a]? = some ets) : s'.rtable[a]? = some ets ∨
      ∃ e now rest, s.handler = .writing e now rest ∧ e.address = a ∧
        s'.rtable[a]? = some (e.route next now) := by
  cases handlerStep_move h with
  | tests => exact Or.inl hets
  | skips => exact Or.inl hets
  | misses => exact Or.inl hets
  | finds => exact Or.inl hets
  | reads e now rest =>
    have hmem : a ∈ s.rtable := mem_of_getElem? hets
    refine Or.inl ?_
    rw [Std.ExtTreeMap.getElem?_insertIfNew, if_neg]
    · exact hets
    · rintro ⟨heq, hnot⟩
      exact hnot (Std.compare_eq_iff_eq.mp heq ▸ hmem)
  | writes e now rest hpc =>
    by_cases haddress : e.address = a
    · refine Or.inr ⟨e, now, rest, hpc, haddress, ?_⟩
      rw [getElem?_insert_eq, if_pos haddress]
    · rw [getElem?_insert_eq, if_neg haddress]
      exact Or.inl hets

/-! ### The iterators -/

/-- The iterators are at distinct entries of the table. -/
structure Valid (s : Overlap) : Prop where
  present : ∀ k ∈ s.command.cursors, k ∈ s.rtable
  distinct : s.command.cursors.Nodup

/-- No step of the handler invalidates an iterator: it erases nothing. -/
theorem Valid.handlerStep {s s' : Overlap} (h : s.Valid)
    (hstep : s.handlerStep node next = some s') : s'.Valid := by
  have hcommand := handlerStep_command hstep
  refine ⟨fun k hk ↦ ?_, hcommand ▸ h.distinct⟩
  rw [hcommand] at hk
  obtain ⟨ets, hets⟩ := getElem?_of_mem (h.present k hk)
  rcases handlerStep_present hstep hets with hsame | ⟨e, now, rest, -, -, hnew⟩
  · exact mem_of_getElem? hsame
  · exact mem_of_getElem? hnew

/-- Nor does a step of the command: the entry it erases is one it has left. -/
theorem Valid.commandStep {s s' : Overlap} (h : s.Valid) (hstep : s.commandStep next = some s') :
    s'.Valid := by
  obtain ⟨hpresent, hdistinct⟩ := h
  cases commandStep_move hstep with
  | closes => exact ⟨fun k hk ↦ absurd hk List.not_mem_nil, List.nodup_nil⟩
  | begins =>
    refine ⟨fun k hk ↦ ?_, Option.toList_nodup _⟩
    exact mem_of_firstKey (Option.mem_toList.mp hk)
  | advances itr hpc =>
    rw [hpc] at hpresent
    refine ⟨fun k hk ↦ ?_, List.nodup_cons.mpr ⟨fun hmem ↦ ?_, Option.toList_nodup _⟩⟩
    · rcases List.mem_cons.mp hk with rfl | hk
      · exact hpresent k List.mem_cons_self
      · exact mem_of_keyAfter (Option.mem_toList.mp hk)
    · have hlt := lt_of_keyAfter (Option.mem_toList.mp hmem)
      rw [Std.compare_self] at hlt
      exact Ordering.noConfusion hlt
  | picks itr nextItr ets hpc =>
    rw [hpc] at hpresent hdistinct
    exact ⟨hpresent, hdistinct⟩
  | keeps itr nextItr ets hpc =>
    rw [hpc] at hpresent hdistinct
    exact ⟨fun k hk ↦ hpresent k (List.mem_cons_of_mem itr hk), (List.nodup_cons.mp hdistinct).2⟩
  | erases itr nextItr hpc =>
    rw [hpc] at hpresent hdistinct
    obtain ⟨hleft, hrest⟩ := List.nodup_cons.mp hdistinct
    refine ⟨fun k hk ↦ ?_, hrest⟩
    obtain ⟨ets, hets⟩ := getElem?_of_mem (hpresent k (List.mem_cons_of_mem itr hk))
    have hne : itr ≠ k := fun heq ↦ hleft (heq ▸ hk)
    refine mem_of_getElem? (v := ets) ?_
    change (s.rtable.erase itr)[k]? = some ets
    rw [getElem?_erase_eq, if_neg hne, hets]

theorem Valid.reachable {id : ℕ} {data : List UInt8} {clock : ℕ → Timeval} {s : Overlap}
    (h : Reachable (Step node next) (start node id data clock) s) : s.Valid := by
  refine h.invariant (fun s thread s' hs hstep ↦ ?_)
    ⟨fun k hk ↦ absurd hk List.not_mem_nil, List.nodup_nil⟩
  cases thread with
  | handler => exact hs.handlerStep hstep
  | command => exact hs.commandStep hstep

theorem handlerStep_eq_none {s : Overlap} (h : s.handlerStep node next = none) :
    s.handler = .finding [] := by
  unfold handlerStep at h
  split at h
  next => exact absurd h (Option.some_ne_none _)
  next hpc => exact hpc
  next =>
    split_ifs at h
    split at h
    next => exact absurd h (Option.some_ne_none _)
    next => exact absurd h (Option.some_ne_none _)
  next => exact absurd h (Option.some_ne_none _)
  next => exact absurd h (Option.some_ne_none _)

theorem Valid.commandStep_eq_none {s : Overlap} (hvalid : s.Valid) (h : s.commandStep next = none) :
    s.command = .advancing none := by
  unfold Overlap.commandStep at h
  split at h
  next => exact absurd h (Option.some_ne_none _)
  next => exact absurd h (Option.some_ne_none _)
  next hpc => exact hpc
  next => exact absurd h (Option.some_ne_none _)
  next itr nextItr hpc =>
    have hitr : itr ∈ s.command.cursors := by
      rw [hpc]
      exact List.mem_cons_self
    obtain ⟨ets, hets⟩ := getElem?_of_mem (hvalid.present itr hitr)
    rw [hets] at h
    dsimp only at h
    split_ifs at h
  next => exact absurd h (Option.some_ne_none _)

/-- However the two threads take turns, no iterator dangles and no thread is stuck before it is
done. -/
theorem finished_of_stuck {id : ℕ} {data : List UInt8} {clock : ℕ → Timeval} {s : Overlap}
    (h : Reachable (Step node next) (start node id data clock) s)
    (hstuck : ∀ thread, s.next? node next thread = none) : s.Finished :=
  ⟨handlerStep_eq_none (hstuck .handler),
    (Valid.reachable h).commandStep_eq_none (hstuck .command)⟩

end Overlap

end IpRipStack
