import IpRipStack.RouteLife
import IpRipStack.Overlap

/-!
# What becomes of a response when its interface is taken down

The final table of `Overlap` compared with the two serial executions: the response handled before
the command, and after it, when it finds the interface down (`Node.Serialised`).

While the steps are safe (`Safe`) the table is at every moment that of the handler running by
itself, with the entries gone, behind the walk, that the walk looks for (`Serial`). The first step
that is not safe leaves something behind the walk that no later step repairs: a route through the
interface (`Leftover`), or the zeroed entry that `operator[]` makes (`Phantom`). So the safe runs
are exactly those whose final table is serial (`Overlap.serialised_iff`).
-/

set_option autoImplicit false
set_option relaxedAutoImplicit false

namespace IpRipStack

open MachineWord OrderedMap Runs

/-- What `transfer_data` takes for a response. -/
def IsResponse (order : ByteOrder) (data : List UInt8) : Prop :=
  ChecksumValid order data ∧ byteAt data 9 = ripProto ∧ readCommand order (ripPayload data) = 2

instance (order : ByteOrder) (data : List UInt8) : Decidable (IsResponse order data) :=
  inferInstanceAs (Decidable (_ ∧ _))

/-! ### The two serial executions -/

/-- The route the walk leaves for an address. -/
def kept (next a : UInt32) (route : Option EntryWts) : Option EntryWts :=
  route.filter fun ets ↦ !(ets.nextHop == next || a == next)

theorem kept_eq_some {next a : UInt32} {route : Option EntryWts} {ets : EntryWts} :
    kept next a route = some ets ↔ route = some ets ∧ ets.nextHop ≠ next ∧ a ≠ next := by
  simp [kept, Option.filter_eq_some_iff]

theorem kept_eq_none {next a : UInt32} {ets : EntryWts} (h : ets.nextHop = next ∨ a = next) :
    kept next a (some ets) = none := by
  refine Option.eq_none_iff_forall_ne_some.mpr fun ets' hets' ↦ ?_
  obtain ⟨hsame, hhop, hkey⟩ := kept_eq_some.mp hets'
  obtain rfl := Option.some.inj hsame
  exact h.elim hhop hkey

namespace Node

/-- The route for an address when the handler has taken up some entries and nothing else has
happened. -/
def learned (node : Node) (next : UInt32) (taken : List (Entry × Timeval)) (a : UInt32) :
    Option EntryWts :=
  if node.isMyInterface a then node.rtable[a]? else taken.foldl (hear a next) node.rtable[a]?

/-- The command takes down the interface it names, and leaves in the table what the walk leaves. -/
theorem exists_downCmd {node : Node} {next : UInt32} {id : ℕ}
    (harrives : node.getInterface next = some id) :
    ∃ node', node.downCmd id = some node' ∧ node.SameLinks node' ∧ node'.isUp id = false ∧
      ∀ a, node'.rtable[a]? = kept next a node.rtable[a]? := by
  obtain ⟨ifc, hget, rfl⟩ := getInterface_eq_some harrives
  have hdown : node.downCmd id = some _ := congrArg _ hget
  obtain ⟨ifc', hget', -, htable⟩ := downCmd_spec hdown
  obtain rfl := Option.some.inj (hget.symm.trans hget')
  refine ⟨_, hdown, execute_sameLinks (c := .down id) hdown, ?_, fun a ↦ ?_⟩
  · exact (isUp_downCmd hdown id).trans (if_pos rfl)
  · ext ets
    rw [htable, kept_eq_some]

/-- The table after a response has been taken up. -/
theorem transferIpToRip_learned {node : Node} {data : List UInt8}
    (hresponse : readCommand node.order data = 2) (next : UInt32) (clock : ℕ → Timeval)
    (a : UInt32) : (node.transferIpToRip data next clock).rtable[a]? =
      node.learned next (readTimed node.order data clock) a := by
  unfold learned
  split_ifs with hmine
  · refine transferIpToRip_induction (P := fun table ↦ table[a]? = node.rtable[a]?) rfl ?_
    intro table curEntry i _ htable
    rw [← htable]
    exact updateEntry_own hmine table curEntry next (clock i)
  · exact transferIpToRip_route (Bool.eq_false_iff.mpr hmine) hresponse next clock

/-- The interface a response arrives on: it is attributed to the first interface with the address.
-/
theorem transferData_response {node : Node} {data : List UInt8}
    (hresponse : IsResponse node.order data) {next : UInt32} {id : ℕ}
    (harrives : node.getInterface next = some id) (len : ℕ) (clock : ℕ → Timeval) :
    node.transferData data len next clock =
      if node.isUp id then node.transferIpToRip (ripPayload data) next clock else node := by
  rw [transferData_rip hresponse.1 hresponse.2.1, harrives, Option.any_some]

/-- The response, then the command. -/
theorem exists_response_down {node : Node} {data : List UInt8}
    (hresponse : IsResponse node.order data) {next : UInt32} {id : ℕ}
    (harrives : node.getInterface next = some id) (len : ℕ) (clock : ℕ → Timeval) :
    ∃ node', (node.transferData data len next clock).downCmd id = some node' ∧
      ∀ a, node'.rtable[a]? = kept next a (node.learned next
        (if node.isUp id then readTimed node.order (ripPayload data) clock else []) a) := by
  rw [transferData_response hresponse harrives]
  split_ifs with hup
  · have hlinks := node.transferIpToRip_sameLinks (ripPayload data) next clock
    obtain ⟨node', hdown, -, -, htable⟩ :=
      exists_downCmd ((hlinks.getInterface next).trans harrives)
    refine ⟨node', hdown, fun a ↦ ?_⟩
    rw [htable, transferIpToRip_learned hresponse.2.2]
  · obtain ⟨node', hdown, -, -, htable⟩ := exists_downCmd harrives
    refine ⟨node', hdown, fun a ↦ ?_⟩
    rw [htable, learned, List.foldl_nil, ite_self]

/-- The command, then the response. -/
theorem exists_down_response {node : Node} {data : List UInt8}
    (hresponse : IsResponse node.order data) {next : UInt32} {id : ℕ}
    (harrives : node.getInterface next = some id) (len : ℕ) (clock : ℕ → Timeval) :
    ∃ node', node.downCmd id = some node' ∧
      ∀ a, (node'.transferData data len next clock).rtable[a]? =
        kept next a (node.learned next [] a) := by
  obtain ⟨node', hdown, hlinks, hisdown, htable⟩ := exists_downCmd harrives
  have hresponse' : IsResponse node'.order data := by
    rw [hlinks.order]
    exact hresponse
  refine ⟨node', hdown, fun a ↦ ?_⟩
  rw [transferData_response hresponse' ((hlinks.getInterface next).trans harrives), hisdown,
    if_neg Bool.false_ne_true, htable, learned, List.foldl_nil, ite_self]

/-- The table is the one after the response has been handled and then the command, or after the
command and then the response. -/
def Serialised (node : Node) (data : List UInt8) (len : ℕ) (next : UInt32) (clock : ℕ → Timeval)
    (id : ℕ) (table : RouteTable) : Prop :=
  ((node.transferData data len next clock).downCmd id).map rtable = some table ∨
    (node.downCmd id).map (fun node ↦ (node.transferData data len next clock).rtable) = some table

/-- The two tables, address by address. -/
theorem serialised_iff_getElem? {node : Node} {data : List UInt8}
    (hresponse : IsResponse node.order data) {next : UInt32} {id : ℕ}
    (harrives : node.getInterface next = some id) (len : ℕ) (clock : ℕ → Timeval)
    (table : RouteTable) :
    node.Serialised data len next clock id table ↔
      (∀ a, table[a]? = kept next a (node.learned next
        (if node.isUp id then readTimed node.order (ripPayload data) clock else []) a)) ∨
      ∀ a, table[a]? = kept next a (node.learned next [] a) := by
  obtain ⟨node₁, hrun₁, htable₁⟩ := exists_response_down hresponse harrives len clock
  obtain ⟨node₂, hrun₂, htable₂⟩ := exists_down_response hresponse harrives len clock
  have hext : ∀ {t t' : RouteTable} {f : UInt32 → Option EntryWts}, (∀ a, t'[a]? = f a) →
      (t' = t ↔ ∀ a, t[a]? = f a) := by
    intro t t' f hf
    constructor
    · rintro rfl
      exact hf
    · exact fun h ↦ Std.ExtTreeMap.ext_getElem? fun a ↦ (hf a).trans (h a).symm
  unfold Serialised
  rw [hrun₁, hrun₂, Option.map_some, Option.map_some, Option.some.injEq, Option.some.injEq]
  exact or_congr (hext htable₁) (hext htable₂)

end Node

/-! ### What an entry teaches -/

section Learned

variable (node : Node) (next : UInt32) (taken : List (Entry × Timeval))

theorem Node.learned_append (e : Entry) (now : Timeval) (a : UInt32) :
    node.learned next (taken ++ [(e, now)]) a =
      if node.isMyInterface a then node.learned next taken a
      else hear a next (node.learned next taken a) (e, now) := by
  unfold learned
  split_ifs
  · rfl
  · rw [List.foldl_append, List.foldl_cons, List.foldl_nil]

variable {node next taken}

/-- An entry that is passed over teaches nothing. -/
theorem Node.learned_of_skip {e : Entry}
    (hskip : node.isMyInterface e.address = true ∨ e.cost = ripMaxCost) (now : Timeval) :
    node.learned next (taken ++ [(e, now)]) = node.learned next taken := by
  ext1 a
  rw [learned_append]
  split_ifs with hmine
  · rfl
  · have hnot : ¬ (e.address = a ∧ e.cost ≠ ripMaxCost) := by
      rintro ⟨rfl, hcost⟩
      exact hskip.elim hmine hcost
    exact hear_of_not_offer hnot _

/-- Nor does an entry for an address with a route that costs no more. -/
theorem Node.learned_of_cheap {e : Entry} {ets : EntryWts}
    (hets : node.learned next taken e.address = some ets) (hcheap : ¬ ets.e.cost > e.cost + 1)
    (now : Timeval) : node.learned next (taken ++ [(e, now)]) = node.learned next taken := by
  ext1 a
  rw [learned_append]
  split_ifs with hmine
  · rfl
  · by_cases haddress : e.address = a
    · subst haddress
      rw [hets]
      exact congrArg some (if_neg fun hnew ↦ hcheap hnew.2.2)
    · exact hear_of_not_offer (fun hoffer ↦ haddress hoffer.1) _

/-- An entry that is taken up. -/
theorem Node.learned_of_offer {e : Entry} {now : Timeval}
    (hother : node.isMyInterface e.address = false)
    (hnew : hear e.address next (node.learned next taken e.address) (e, now) =
      some (e.route next now)) (a : UInt32) :
    node.learned next (taken ++ [(e, now)]) a =
      if e.address = a then some (e.route next now) else node.learned next taken a := by
  rw [learned_append]
  split_ifs with hmine haddress haddress
  · subst haddress
    exact absurd (hmine.symm.trans hother) Bool.true_eq_false.mp
  · rfl
  · subst haddress
    exact hnew
  · exact hear_of_not_offer (fun hoffer ↦ haddress hoffer.1) _

end Learned

/-! ### The walk -/

/-- An iterator that has not gone past a key. -/
def Ahead (itr : Option UInt32) (a : UInt32) : Prop := ∃ k, itr = some k ∧ k ≤ a

/-- The walk is still to test an entry with the key, if there will be one. -/
def CommandPc.Pending : CommandPc → UInt32 → Prop
  | .closing, _ | .beginning, _ => True
  | .advancing itr, a => Ahead itr a
  | .examining itr nextItr, a | .erasing itr nextItr, a => a = itr ∨ Ahead nextItr a

instance (itr : Option UInt32) (a : UInt32) : Decidable (Ahead itr a) :=
  match itr with
  | none => isFalse fun ⟨_, hk, _⟩ ↦ Option.some_ne_none _ hk.symm
  | some k =>
    decidable_of_iff (k ≤ a) ⟨fun h ↦ ⟨k, rfl, h⟩, fun ⟨_, hk, h⟩ ↦ Option.some.inj hk ▸ h⟩

instance (command : CommandPc) (a : UInt32) : Decidable (command.Pending a) :=
  match command with
  | .closing | .beginning => isTrue trivial
  | .advancing itr => inferInstanceAs (Decidable (Ahead itr a))
  | .examining itr nextItr | .erasing itr nextItr =>
    inferInstanceAs (Decidable (a = itr ∨ Ahead nextItr a))

/-- An iterator past a key is at no key of the table that is not past it as well. -/
theorem not_ahead_keyAfter {table : RouteTable} {itr a : UInt32} (h : a < itr) :
    ¬ Ahead (keyAfter table itr) a := by
  rintro ⟨k, hk, hle⟩
  have hlt : itr < k := Std.compare_eq_lt.mp (lt_of_keyAfter hk)
  exact UInt32.lt_irrefl _ (UInt32.lt_trans (UInt32.lt_of_le_of_lt hle h) hlt)

theorem not_mem_of_not_ahead {table : RouteTable} {itr a : UInt32} (hle : itr ≤ a) (hne : a ≠ itr)
    (h : ¬ Ahead (keyAfter table itr) a) : table[a]? = none := by
  by_contra hsome
  obtain ⟨ets, hets⟩ := Option.ne_none_iff_exists'.mp hsome
  have hmem : a ∈ table := mem_of_getElem? hets
  have hlt : compare itr a = .lt :=
    Std.compare_eq_lt.mpr (UInt32.lt_of_le_of_ne hle hne.symm)
  obtain ⟨k, hk, hka⟩ := exists_keyAfter_le hmem hlt
  exact h ⟨k, hk, Std.isLE_compare.mp hka⟩

theorem not_mem_of_not_ahead_firstKey {table : RouteTable} {a : UInt32}
    (h : ¬ Ahead (firstKey table) a) : table[a]? = none := by
  by_contra hsome
  obtain ⟨ets, hets⟩ := Option.ne_none_iff_exists'.mp hsome
  have hmem : a ∈ table := mem_of_getElem? hets
  obtain ⟨k, hk, hle⟩ := exists_firstKey_le hmem
  exact h ⟨k, hk, Std.isLE_compare.mp hle⟩

namespace Overlap

variable {node : Node} {next : UInt32}

/-- The command does nothing to an entry that its walk is past. -/
theorem commandStep_past {s s' : Overlap} (h : s.commandStep next = some s') {a : UInt32}
    (hpast : ¬ s.command.Pending a) :
    ¬ s'.command.Pending a ∧ s'.rtable[a]? = s.rtable[a]? := by
  cases commandStep_move h with
  | closes hpc =>
    rw [hpc] at hpast
    exact absurd trivial hpast
  | begins hpc =>
    rw [hpc] at hpast
    exact absurd trivial hpast
  | advances itr hpc =>
    rw [hpc] at hpast
    have hlt : a < itr := UInt32.not_le.mp fun hle ↦ hpast ⟨itr, rfl, hle⟩
    refine ⟨?_, rfl⟩
    rintro (rfl | hahead)
    · exact UInt32.lt_irrefl _ hlt
    · exact not_ahead_keyAfter hlt hahead
  | picks itr nextItr ets hpc =>
    rw [hpc] at hpast
    exact ⟨hpast, rfl⟩
  | keeps itr nextItr ets hpc =>
    rw [hpc] at hpast
    exact ⟨fun hahead ↦ hpast (Or.inr hahead), rfl⟩
  | erases itr nextItr hpc =>
    rw [hpc] at hpast
    refine ⟨fun hahead ↦ hpast (Or.inr hahead), ?_⟩
    have hne : itr ≠ a := fun heq ↦ hpast (Or.inl heq.symm)
    rw [getElem?_erase_eq, if_neg hne]

/-- `next_itr` is past `itr`, and the entry about to be erased is one the walk looks for. -/
structure Walks (next : UInt32) (s : Overlap) : Prop where
  ordered : ∀ itr k, s.command = .examining itr (some k) ∨ s.command = .erasing itr (some k) →
    itr < k
  doomed : ∀ itr nextItr, s.command = .erasing itr nextItr → ∀ ets, s.rtable[itr]? = some ets →
    ets.nextHop = next ∨ itr = next

theorem Walks.commandStep {s s' : Overlap} (hwalks : s.Walks next)
    (h : s.commandStep next = some s') : s'.Walks next := by
  cases commandStep_move h with
  | closes => exact ⟨by simp, by simp⟩
  | begins => exact ⟨by simp, by simp⟩
  | advances itr =>
    refine ⟨fun itr' k hk ↦ ?_, by simp⟩
    obtain ⟨rfl, hafter⟩ := CommandPc.examining.inj (hk.resolve_right (by simp))
    exact Std.compare_eq_lt.mp (lt_of_keyAfter hafter)
  | picks itr nextItr ets hpc hets hmatch =>
    refine ⟨fun itr' k hk ↦ ?_, fun itr' nextItr' hk ets' hets' ↦ ?_⟩
    · obtain ⟨rfl, rfl⟩ := CommandPc.erasing.inj (hk.resolve_left (by simp))
      exact hwalks.ordered itr k (Or.inl hpc)
    · obtain ⟨rfl, -⟩ := CommandPc.erasing.inj hk
      change s.rtable[itr]? = some ets' at hets'
      rw [hets] at hets'
      rwa [← Option.some.inj hets']
  | keeps => exact ⟨by simp, by simp⟩
  | erases => exact ⟨by simp, by simp⟩

/-- The command keeps an entry until its walk is past it, and then leaves what the walk leaves. -/
theorem Walks.commandStep_pending {s s' : Overlap} (hwalks : s.Walks next)
    (h : s.commandStep next = some s') {a : UInt32} (hpending : s.command.Pending a) :
    (s'.command.Pending a → s'.rtable[a]? = s.rtable[a]?) ∧
      (¬ s'.command.Pending a → s'.rtable[a]? = kept next a s.rtable[a]?) := by
  have hgone : s.rtable[a]? = none → s.rtable[a]? = kept next a s.rtable[a]? := by
    intro hnone
    rw [hnone]
    rfl
  cases commandStep_move h with
  | closes => exact ⟨fun _ ↦ rfl, fun hpast ↦ absurd trivial hpast⟩
  | begins => exact ⟨fun _ ↦ rfl, fun hpast ↦ hgone (not_mem_of_not_ahead_firstKey hpast)⟩
  | advances itr hpc =>
    rw [hpc] at hpending
    obtain ⟨k, hk, hle⟩ := hpending
    obtain rfl := Option.some.inj hk
    refine ⟨fun _ ↦ rfl, fun hpast ↦ hgone ?_⟩
    exact not_mem_of_not_ahead hle (fun heq ↦ hpast (Or.inl heq)) fun h ↦ hpast (Or.inr h)
  | picks itr nextItr ets hpc =>
    rw [hpc] at hpending
    exact ⟨fun _ ↦ rfl, fun hpast ↦ absurd hpending hpast⟩
  | keeps itr nextItr ets hpc hets hmatch =>
    rw [hpc] at hpending
    refine ⟨fun _ ↦ rfl, fun hpast ↦ ?_⟩
    obtain rfl := hpending.resolve_right hpast
    change s.rtable[a]? = kept next a s.rtable[a]?
    rw [hets, eq_comm, kept_eq_some]
    exact ⟨rfl, fun hhop ↦ hmatch (Or.inl hhop), fun hkey ↦ hmatch (Or.inr hkey)⟩
  | erases itr nextItr hpc =>
    rw [hpc] at hpending
    change (Ahead nextItr a → (s.rtable.erase itr)[a]? = s.rtable[a]?) ∧
      (¬ Ahead nextItr a → (s.rtable.erase itr)[a]? = kept next a s.rtable[a]?)
    rw [getElem?_erase_eq]
    constructor
    · rintro ⟨k, rfl, hle⟩
      rw [if_neg]
      rintro rfl
      exact UInt32.lt_irrefl _ (UInt32.lt_of_lt_of_le (hwalks.ordered itr k (Or.inr hpc)) hle)
    · intro hpast
      obtain rfl := hpending.resolve_right hpast
      rw [if_pos rfl]
      cases hets : s.rtable[a]? with
      | none => rfl
      | some ets => exact (kept_eq_none (hwalks.doomed a nextItr hpc ets hets)).symm

/-! ### The table while the steps are safe -/

/-- The step puts no route into the table that the walk is past: a write is for an address the walk
is still to test, and `operator[]` finds an entry. -/
def Safe (s : Overlap) : Thread → Prop
  | .handler =>
    match s.handler with
    | .reading e _ _ => e.address ∈ s.rtable
    | .writing e _ _ => s.command.Pending e.address
    | _ => True
  | .command => True

instance (s : Overlap) (thread : Thread) : Decidable (s.Safe thread) :=
  match thread with
  | .command => isTrue trivial
  | .handler =>
    match h : s.handler with
    | .testing _ | .finding _ => isTrue (by simp only [Safe, h])
    | .reading e _ _ => decidable_of_iff (e.address ∈ s.rtable) (by simp only [Safe, h])
    | .writing e _ _ => decidable_of_iff (s.command.Pending e.address) (by simp only [Safe, h])

section Serial

variable (node : Node) (next : UInt32) (id : ℕ) (heard taken : List (Entry × Timeval))

/-- Where the handler is when it has dealt with the entries of `taken`. -/
def Position : HandlerPc → Prop
  | .testing rest => rest = heard ∧ taken = []
  | .finding rest => heard = taken ++ rest ∧ node.isUp id = true ∨ taken = [] ∧ rest = []
  | .reading e now rest | .writing e now rest =>
    heard = taken ++ (e, now) :: rest ∧ node.isUp id = true ∧
      ¬ (node.isMyInterface e.address = true ∨ e.cost = ripMaxCost)

/-- The table is that of a serial execution: what the handler has learned, behind the walk with the
entries gone that it looks for. -/
structure Serial (s : Overlap) : Prop where
  walks : s.Walks next
  up : s.isup = true → s.command = .closing ∧ node.isUp id = true
  position : Position node id heard taken s.handler
  found : ∀ e now rest, s.handler = .reading e now rest → node.learned next taken e.address ≠ none
  due : ∀ e now rest, s.handler = .writing e now rest → s.command.Pending e.address →
    hear e.address next (node.learned next taken e.address) (e, now) = some (e.route next now)
  ahead : ∀ a, s.command.Pending a → s.rtable[a]? = node.learned next taken a
  behind : ∀ a, ¬ s.command.Pending a → s.rtable[a]? = kept next a (node.learned next taken a)

end Serial

variable {node : Node} {next : UInt32} {id : ℕ} {heard taken : List (Entry × Timeval)}

/-- Any entry of the table is one the handler has learned. -/
theorem Serial.learned_eq {s : Overlap} (h : s.Serial node next id heard taken) {a : UInt32}
    {ets : EntryWts} (hets : s.rtable[a]? = some ets) : node.learned next taken a = some ets := by
  by_cases hpending : s.command.Pending a
  · rw [← h.ahead a hpending, hets]
  · rw [h.behind a hpending] at hets
    exact (kept_eq_some.mp hets).1

/-- The handler goes on without having learned anything. -/
theorem Serial.goOn {s : Overlap} (h : s.Serial node next id heard taken)
    {taken' rest : List (Entry × Timeval)}
    (hlearned : node.learned next taken' = node.learned next taken)
    (hposition : Position node id heard taken' (.finding rest)) :
    Serial node next id heard taken' { s with handler := .finding rest } where
  walks := ⟨h.walks.ordered, h.walks.doomed⟩
  up := h.up
  position := hposition
  found := by simp
  due := by simp
  ahead := fun a hpending ↦ by rw [hlearned, ← h.ahead a hpending]
  behind := fun a hpast ↦ by rw [hlearned, ← h.behind a hpast]

/-- A safe step of the handler. -/
theorem Serial.handlerStep {s s' : Overlap} (h : s.Serial node next id heard taken)
    (hsafe : s.Safe .handler) (hstep : s.handlerStep node next = some s') :
    ∃ taken', s'.Serial node next id heard taken' := by
  have hposition := h.position
  cases handlerStep_move hstep with
  | tests rest hpc =>
    rw [hpc] at hposition
    obtain ⟨rfl, rfl⟩ := hposition
    refine ⟨[], h.goOn rfl ?_⟩
    split_ifs with hup
    · exact Or.inl ⟨rfl, (h.up hup).2⟩
    · exact Or.inr ⟨rfl, rfl⟩
  | skips e now rest hpc hskip =>
    rw [hpc] at hposition
    obtain ⟨rfl, hup⟩ := hposition.resolve_right (by simp)
    refine ⟨taken ++ [(e, now)], h.goOn (Node.learned_of_skip hskip now) (Or.inl ⟨?_, hup⟩)⟩
    rw [List.append_assoc, List.singleton_append]
  | misses e now rest hpc hoffer hnone =>
    rw [hpc] at hposition
    obtain ⟨rfl, hup⟩ := hposition.resolve_right (by simp)
    refine ⟨taken, ⟨⟨h.walks.ordered, h.walks.doomed⟩, h.up, ⟨rfl, hup, hoffer⟩, by simp, ?_,
      h.ahead, h.behind⟩⟩
    intro e' now' rest' hwriting hpending
    obtain ⟨rfl, rfl, rfl⟩ := HandlerPc.writing.inj hwriting
    rw [← h.ahead e.address hpending, hnone]
    exact if_pos ⟨rfl, fun hcost ↦ hoffer (Or.inr hcost)⟩
  | finds e now rest ets hpc hoffer hets =>
    rw [hpc] at hposition
    obtain ⟨rfl, hup⟩ := hposition.resolve_right (by simp)
    refine ⟨taken, ⟨⟨h.walks.ordered, h.walks.doomed⟩, h.up, ⟨rfl, hup, hoffer⟩, ?_, by simp,
      h.ahead, h.behind⟩⟩
    intro e' now' rest' hreading
    obtain ⟨rfl, rfl, rfl⟩ := HandlerPc.reading.inj hreading
    rw [h.learned_eq hets]
    exact Option.some_ne_none ets
  | reads e now rest hpc =>
    rw [hpc] at hposition
    obtain ⟨rfl, hup, hoffer⟩ := hposition
    have hmem : e.address ∈ s.rtable := by
      simp only [Safe, hpc] at hsafe
      exact hsafe
    obtain ⟨ets, hets⟩ := getElem?_of_mem hmem
    rw [insertIfNew_of_mem hmem, Std.ExtTreeMap.getD_eq_getD_getElem?, hets, Option.getD_some]
    split_ifs with hcheaper
    · refine ⟨taken, ⟨⟨h.walks.ordered, h.walks.doomed⟩, h.up, ⟨rfl, hup, hoffer⟩, by simp, ?_,
        h.ahead, h.behind⟩⟩
      intro e' now' rest' hwriting hpending
      obtain ⟨rfl, rfl, rfl⟩ := HandlerPc.writing.inj hwriting
      rw [h.learned_eq hets]
      exact congrArg some (if_pos ⟨rfl, fun hcost ↦ hoffer (Or.inr hcost), hcheaper⟩)
    · refine ⟨taken ++ [(e, now)], h.goOn
        (Node.learned_of_cheap (h.learned_eq hets) hcheaper now) (Or.inl ⟨?_, hup⟩)⟩
      rw [List.append_assoc, List.singleton_append]
  | writes e now rest hpc =>
    rw [hpc] at hposition
    obtain ⟨rfl, hup, hoffer⟩ := hposition
    have hpending : s.command.Pending e.address := by
      simp only [Safe, hpc] at hsafe
      exact hsafe
    have hother : node.isMyInterface e.address = false :=
      Bool.eq_false_iff.mpr fun hmine ↦ hoffer (Or.inl hmine)
    have hlearned := Node.learned_of_offer hother (h.due e now rest hpc hpending)
    refine ⟨taken ++ [(e, now)], ⟨⟨h.walks.ordered, ?_⟩, h.up, Or.inl ⟨?_, hup⟩, by simp, by simp,
      ?_, ?_⟩⟩
    · intro itr nextItr herasing ets hets
      rw [getElem?_insert_eq] at hets
      split_ifs at hets with haddress
      · obtain rfl := Option.some.inj hets
        exact Or.inl rfl
      · exact h.walks.doomed itr nextItr herasing ets hets
    · rw [List.append_assoc, List.singleton_append]
    · intro a hahead
      rw [getElem?_insert_eq, hlearned]
      split_ifs
      · rfl
      · exact h.ahead a hahead
    · intro a hpast
      have hne : e.address ≠ a := by
        rintro rfl
        exact hpast hpending
      rw [getElem?_insert_eq, hlearned, if_neg hne, if_neg hne]
      exact h.behind a hpast

/-- A step of the command. -/
theorem Serial.commandStep {s s' : Overlap} (h : s.Serial node next id heard taken)
    (hstep : s.commandStep next = some s') : s'.Serial node next id heard taken := by
  obtain ⟨hhandler, hisup⟩ := commandStep_frame hstep
  have hpending : ∀ a, s'.command.Pending a → s.command.Pending a := by
    intro a
    contrapose
    exact fun hpast ↦ (commandStep_past hstep hpast).1
  constructor
  · exact h.walks.commandStep hstep
  · intro hup
    obtain ⟨hup, hopen⟩ := hisup hup
    exact absurd (h.up hup).1 hopen
  · rw [hhandler]
    exact h.position
  · rw [hhandler]
    exact h.found
  · intro e now rest hwriting hahead
    exact h.due e now rest (hhandler ▸ hwriting) (hpending e.address hahead)
  · intro a hahead
    rw [(h.walks.commandStep_pending hstep (hpending a hahead)).1 hahead]
    exact h.ahead a (hpending a hahead)
  · intro a hpast
    by_cases hahead : s.command.Pending a
    · rw [(h.walks.commandStep_pending hstep hahead).2 hpast, h.ahead a hahead]
    · rw [(commandStep_past hstep hahead).2]
      exact h.behind a hahead

theorem Serial.step {s s' : Overlap} (h : s.Serial node next id heard taken) {thread : Thread}
    (hsafe : s.Safe thread) (hstep : s.Step node next thread s') :
    ∃ taken', s'.Serial node next id heard taken' := by
  cases thread with
  | handler => exact h.handlerStep hsafe hstep
  | command => exact ⟨taken, h.commandStep hstep⟩

/-- At the start nothing has been learned. -/
theorem serial_start (node : Node) (next : UInt32) (id : ℕ) (data : List UInt8)
    (clock : ℕ → Timeval) :
    (start node id data clock).Serial node next id
      (readTimed node.order (ripPayload data) clock) [] where
  walks := ⟨by simp [start], by simp [start]⟩
  up := fun hup ↦ ⟨rfl, hup⟩
  position := ⟨rfl, rfl⟩
  found := by simp [start]
  due := by simp [start]
  ahead := fun a _ ↦ by simp [start, Node.learned]
  behind := fun a hpast ↦ absurd trivial hpast

/-- When both threads are done the handler has learned everything or nothing. -/
theorem Serial.finished {s : Overlap} (h : s.Serial node next id heard taken) (hdone : s.Finished) :
    (∀ a, s.rtable[a]? = kept next a (node.learned next (if node.isUp id then heard else []) a)) ∨
      ∀ a, s.rtable[a]? = kept next a (node.learned next [] a) := by
  obtain ⟨hhandler, hcommand⟩ := hdone
  have hbehind : ∀ a, s.rtable[a]? = kept next a (node.learned next taken a) := by
    intro a
    refine h.behind a ?_
    rw [hcommand]
    rintro ⟨k, hk, -⟩
    exact Option.some_ne_none k hk.symm
  have hposition := h.position
  rw [hhandler] at hposition
  rcases hposition with ⟨rfl, hup⟩ | ⟨rfl, -⟩
  · rw [if_pos hup, List.append_nil]
    exact Or.inl hbehind
  · exact Or.inr hbehind

/-! ### After a step that is not safe -/

/-- An entry behind the walk that goes through the interface. -/
def Leftover (next a : UInt32) (s : Overlap) : Prop :=
  ¬ s.command.Pending a ∧ ∃ ets, s.rtable[a]? = some ets ∧ ets.nextHop = next

/-- A zeroed entry behind the walk, which the handler is not about to replace. -/
def Phantom (a : UInt32) (s : Overlap) : Prop :=
  ¬ s.command.Pending a ∧ s.rtable[a]? = some EntryWts.zeroed ∧
    ∀ e now rest, s.handler = .writing e now rest → e.address ≠ a

theorem Leftover.step {a : UInt32} {s s' : Overlap} {thread : Thread} (h : s.Leftover next a)
    (hstep : s.Step node next thread s') : s'.Leftover next a := by
  obtain ⟨hpast, ets, hets, hhop⟩ := h
  cases thread with
  | handler =>
    have hcommand := handlerStep_command hstep
    rcases handlerStep_present hstep hets with hsame | ⟨e, now, rest, -, -, hnew⟩
    · exact ⟨hcommand ▸ hpast, ets, hsame, hhop⟩
    · exact ⟨hcommand ▸ hpast, _, hnew, rfl⟩
  | command =>
    obtain ⟨hpast', hsame⟩ := commandStep_past hstep hpast
    exact ⟨hpast', ets, hsame.trans hets, hhop⟩

theorem Phantom.step {a : UInt32} {s s' : Overlap} {thread : Thread} (h : s.Phantom a)
    (hstep : s.Step node next thread s') : s'.Phantom a := by
  obtain ⟨hpast, hets, hother⟩ := h
  cases thread with
  | handler =>
    have hcommand := handlerStep_command hstep
    rcases handlerStep_present hstep hets with hsame | ⟨e, now, rest, hpc, haddress, -⟩
    · refine ⟨hcommand ▸ hpast, hsame, ?_⟩
      rintro e now rest hwriting rfl
      cases handlerStep_move hstep with
      | tests => exact HandlerPc.noConfusion hwriting
      | skips => exact HandlerPc.noConfusion hwriting
      | misses e' now' rest' hpc hoffer hnone =>
        obtain ⟨rfl, -, -⟩ := HandlerPc.writing.inj hwriting
        exact Option.some_ne_none _ (hets.symm.trans hnone)
      | finds => exact HandlerPc.noConfusion hwriting
      | reads e' now' rest' hpc =>
        -- the zeroed entry costs nothing
        dsimp only at hwriting
        split_ifs at hwriting with hcheaper
        obtain ⟨rfl, -, -⟩ := HandlerPc.writing.inj hwriting
        rw [Std.ExtTreeMap.getD_eq_getD_getElem?, hets] at hcheaper
        exact UInt32.not_lt_zero hcheaper
      | writes => exact HandlerPc.noConfusion hwriting
    · exact absurd haddress (hother e now rest hpc)
  | command =>
    obtain ⟨hpast', hsame⟩ := commandStep_past hstep hpast
    exact ⟨hpast', hsame.trans hets, (commandStep_frame hstep).1 ▸ hother⟩

/-- Where `operator[]` finds no entry the walk has erased one, of a route through the interface, and
neither serial execution ends with a zeroed one. Assumes: the interface's own address. -/
theorem Serial.erased {s : Overlap} (h : s.Serial node next id heard taken)
    (hmine : node.isMyInterface next = true) {e : Entry} {now : Timeval}
    {rest : List (Entry × Timeval)} (hpc : s.handler = .reading e now rest)
    (hnone : s.rtable[e.address]? = none) : ¬ s.command.Pending e.address ∧
      kept next e.address (node.learned next (if node.isUp id then heard else []) e.address) ≠
        some EntryWts.zeroed ∧
      kept next e.address (node.learned next [] e.address) ≠ some EntryWts.zeroed := by
  have hposition := h.position
  rw [hpc] at hposition
  obtain ⟨rfl, hup, hoffer⟩ := hposition
  have hother : node.isMyInterface e.address = false :=
    Bool.eq_false_iff.mpr fun hown ↦ hoffer (Or.inl hown)
  have hne : e.address ≠ next := by
    intro heq
    rw [heq, hmine] at hother
    exact Bool.noConfusion hother
  obtain ⟨ets, hets⟩ := Option.ne_none_iff_exists'.mp (h.found e now rest hpc)
  have hpast : ¬ s.command.Pending e.address := by
    intro hpending
    rw [h.ahead e.address hpending, hets] at hnone
    exact Option.some_ne_none ets hnone
  have hhop : ets.nextHop = next := by
    have hbehind := h.behind e.address hpast
    rw [hnone, hets] at hbehind
    by_contra hhop
    exact Option.some_ne_none ets ((kept_eq_some.mpr ⟨rfl, hhop, hne⟩).symm.trans hbehind.symm)
  have hlearned : ∀ taken, node.learned next taken e.address =
      taken.foldl (hear e.address next) node.rtable[e.address]? := by
    intro taken
    rw [Node.learned, hother, if_neg Bool.false_ne_true]
  rw [hlearned] at hets
  refine ⟨hpast, fun hzeroed ↦ ?_, fun hzeroed ↦ ?_⟩
  · -- the route stays one through the interface
    rw [if_pos hup, hlearned, List.foldl_append, hets] at hzeroed
    obtain ⟨hroute, hhop', -⟩ := kept_eq_some.mp hzeroed
    rcases foldl_hear_origin hroute with hsame | ⟨entry, -, -, -, hnew⟩
    · rw [← Option.some.inj hsame] at hhop'
      exact hhop' hhop
    · rw [hnew] at hhop'
      exact hhop' rfl
  · -- a route that costs nothing is not replaced by one through the interface
    rw [hlearned, List.foldl_nil] at hzeroed
    obtain ⟨hroute, hhop', -⟩ := kept_eq_some.mp hzeroed
    rw [hroute, foldl_hear_some, afterAll_of_free rfl] at hets
    rw [Option.some.inj hets] at hhop'
    exact hhop' hhop

/-- A step that is not safe leaves behind the walk a route through the interface, or a zeroed entry
for an address for which neither serial execution has one. Assumes: the interface's own address. -/
theorem Serial.of_not_safe {s s' : Overlap} {thread : Thread} (h : s.Serial node next id heard taken)
    (hmine : node.isMyInterface next = true) (hstep : s.Step node next thread s')
    (hnotsafe : ¬ s.Safe thread) :
    (∃ a, s'.Leftover next a) ∨ ∃ a, s'.Phantom a ∧
      kept next a (node.learned next (if node.isUp id then heard else []) a) ≠
        some EntryWts.zeroed ∧
      kept next a (node.learned next [] a) ≠ some EntryWts.zeroed := by
  cases thread with
  | command => exact absurd trivial hnotsafe
  | handler =>
    cases handlerStep_move hstep with
    | tests rest hpc =>
      simp only [Safe, hpc] at hnotsafe
      exact absurd trivial hnotsafe
    | skips e now rest hpc =>
      simp only [Safe, hpc] at hnotsafe
      exact absurd trivial hnotsafe
    | misses e now rest hpc =>
      simp only [Safe, hpc] at hnotsafe
      exact absurd trivial hnotsafe
    | finds e now rest ets hpc =>
      simp only [Safe, hpc] at hnotsafe
      exact absurd trivial hnotsafe
    | reads e now rest hpc =>
      simp only [Safe, hpc] at hnotsafe
      have hnone : s.rtable[e.address]? = none := Std.ExtTreeMap.getElem?_eq_none hnotsafe
      obtain ⟨hpast, hbefore, hafter⟩ := h.erased hmine hpc hnone
      refine Or.inr ⟨e.address, ⟨hpast, ?_, ?_⟩, hbefore, hafter⟩
      · rw [Std.ExtTreeMap.getElem?_insertIfNew, if_pos ⟨Std.compare_eq_iff_eq.mpr rfl, hnotsafe⟩]
      · intro e' now' rest' hwriting
        dsimp only at hwriting
        split_ifs at hwriting with hcheaper
        rw [Std.ExtTreeMap.getD_eq_getD_getElem?, hnone] at hcheaper
        exact absurd hcheaper UInt32.not_lt_zero
    | writes e now rest hpc =>
      simp only [Safe, hpc] at hnotsafe
      have hroute : (s.rtable.insert e.address (e.route next now))[e.address]? =
          some (e.route next now) := by
        rw [getElem?_insert_eq, if_pos rfl]
      exact Or.inl ⟨e.address, hnotsafe, e.route next now, hroute, rfl⟩

/-- However the two threads take turns. The final table is that of a serial execution exactly when
each step is safe. -/
theorem serialised_iff {node : Node} {data : List UInt8} (hresponse : IsResponse node.order data)
    {next : UInt32} {id : ℕ} (harrives : node.getInterface next = some id) (len : ℕ)
    (clock : ℕ → Timeval) {threads : List Thread} {s : Overlap}
    (hrun : Run (Step node next) (start node id data clock) threads s) (hdone : s.Finished) :
    node.Serialised data len next clock id s.rtable ↔
      EveryStep (Step node next) Safe (start node id data clock) threads := by
  rw [Node.serialised_iff_getElem? hresponse harrives]
  let heard := readTimed node.order (ripPayload data) clock
  let Serially := fun s : Overlap ↦ ∃ taken, s.Serial node next id heard taken
  have hstart : Serially (start node id data clock) := ⟨[], serial_start node next id data clock⟩
  have hkeep : ∀ s thread s', Serially s → s.Safe thread → s.Step node next thread s' →
      Serially s' := by
    rintro s thread s' ⟨taken, h⟩ hsafe hstep
    exact h.step hsafe hstep
  constructor
  · intro hserial
    rcases hrun.all_or_first Safe with
      hall | ⟨before, thread, after, u, v, hbefore, hstep, hnotsafe, hafter⟩
    · refine hall.everyStep fun {s thread u v} hu hv ↦ ?_
      exact Option.some.inj (hu.symm.trans hv)
    · obtain ⟨ifc, hget, hvip⟩ := Node.getInterface_eq_some harrives
      have hmine : node.isMyInterface next = true :=
        (node.isMyInterface_iff next).mpr ⟨ifc, List.mem_of_getElem? hget, hvip⟩
      obtain ⟨taken, hu⟩ : Serially u :=
        hbefore.invariant (fun s thread s' h hsafe ↦ hkeep s thread s' h hsafe.2 hsafe.1) hstart
      rcases hu.of_not_safe hmine hstep hnotsafe with ⟨a, hleft⟩ | ⟨a, hphantom, hnot₁, hnot₂⟩
      · obtain ⟨-, ets, hets, hhop⟩ := hafter.invariant (fun _ _ _ h hstep ↦ h.step hstep) hleft
        rcases hserial with htable | htable
        · rw [htable] at hets
          exact absurd hhop (kept_eq_some.mp hets).2.1
        · rw [htable] at hets
          exact absurd hhop (kept_eq_some.mp hets).2.1
      · obtain ⟨-, hets, -⟩ := hafter.invariant (fun _ _ _ h hstep ↦ h.step hstep) hphantom
        rcases hserial with htable | htable
        · exact absurd ((htable a).symm.trans hets) hnot₁
        · exact absurd ((htable a).symm.trans hets) hnot₂
  · intro hsafe
    obtain ⟨taken, hs⟩ : Serially s :=
      hsafe.everyState hkeep hstart threads [] s (List.append_nil threads).symm hrun
    exact hs.finished hdone

end Overlap

/-- The command goes from its beginning to its end between `find` and the access that follows it. -/
def lateAccess (steps : ℕ) : List Thread :=
  [.handler, .handler] ++ List.replicate steps .command ++ [.handler]

/-- The response of the neighbour and the command for the one interface of a node, taken in turns.
-/
def overlapped (node : Node) (threads : List Thread) : Option Overlap :=
  threads.foldlM (Overlap.next? node 0x0A000001)
    (Overlap.start node 0 (responsePacket 1) fun _ ↦ seconds 1)

/-- A response whose one write comes just before the walk of the command. -/
def timelyAccess : List Thread :=
  [.handler, .handler, .command, .command, .handler] ++ List.replicate 6 .command

/-- The table is then that of a serial execution. -/
theorem timelyAccess_serialised : ∃ s, Run (Overlap.Step leafNode 0x0A000001)
      (Overlap.start leafNode 0 (responsePacket 1) fun _ ↦ seconds 1) timelyAccess s ∧ s.Finished ∧
    leafNode.Serialised (responsePacket 1) 36 0x0A000001 (fun _ ↦ seconds 1) 0 s.rtable := by
  have hfinal : (timelyAccess.foldlM
      (fun (s : Overlap) thread ↦
        if s.Safe thread then s.next? leafNode 0x0A000001 thread else none)
      (Overlap.start leafNode 0 (responsePacket 1) fun _ ↦ seconds 1)).any
        (fun s ↦ decide s.Finished) = true := by
    decide +kernel
  obtain ⟨s, hs, hdone⟩ := (Option.any_eq_true _ _).mp hfinal
  have hsafe := Run.of_foldlM_if hs
  have hrun : Run (Overlap.Step leafNode 0x0A000001)
      (Overlap.start leafNode 0 (responsePacket 1) fun _ ↦ seconds 1) timelyAccess s :=
    hsafe.mono fun _ _ _ _ h ↦ h.1
  refine ⟨s, hrun, of_decide_eq_true hdone, ?_⟩
  refine (Overlap.serialised_iff (by decide) (by decide) 36 (fun _ ↦ seconds 1) hrun
    (of_decide_eq_true hdone)).mpr (hsafe.everyStep fun hu hv ↦ ?_)
  exact Option.some.inj (hu.symm.trans hv)

/-- What the two serial executions leave of the table. -/
def serialTables (node : Node) : List (Option (List (UInt32 × EntryWts))) :=
  [((node.transferData (responsePacket 1) 36 0x0A000001 fun _ ↦ seconds 1).downCmd 0).map
      fun node ↦ node.rtable.toList,
    (node.downCmd 0).map fun node ↦
      (node.transferData (responsePacket 1) 36 0x0A000001 fun _ ↦ seconds 1).rtable.toList]

/-- Assumes: serial executions that leave the table empty, and a run that does not. -/
theorem exists_not_serialised {node : Node} {threads : List Thread} {left : UInt32 × EntryWts}
    (hserial : serialTables node = [some [], some []])
    (hrun : (overlapped node threads).any (fun s ↦
      decide (s.Finished ∧ s.rtable.toList = [left])) = true) :
    ∃ s, Run (Overlap.Step node 0x0A000001)
        (Overlap.start node 0 (responsePacket 1) fun _ ↦ seconds 1) threads s ∧
      s.Finished ∧ s.rtable.toList = [left] ∧
      ¬ node.Serialised (responsePacket 1) 36 0x0A000001 (fun _ ↦ seconds 1) 0 s.rtable := by
  obtain ⟨s, hs, hfacts⟩ := (Option.any_eq_true _ _).mp hrun
  obtain ⟨hdone, htable⟩ := of_decide_eq_true hfacts
  obtain ⟨hfirst, hsecond⟩ := List.cons.inj hserial
  have hempty : ∀ {result : Option RouteTable},
      result.map Std.ExtTreeMap.toList = some [] → result ≠ some s.rtable := by
    rintro result hresult rfl
    rw [Option.map_some, htable] at hresult
    exact List.cons_ne_nil _ _ (Option.some.inj hresult)
  refine ⟨s, Run.of_foldlM hs, hdone, htable, ?_⟩
  rintro (h | h)
  · refine hempty ?_ h
    rw [Option.map_map]
    exact hfirst
  · refine hempty ?_ h
    rw [Option.map_map]
    exact (List.cons.inj hsecond).1

/-- The response is then written as a route through the interface that is down, if `find` has seen
no route, and as a zeroed entry, if it has seen one. Either serial execution leaves the table empty.
-/
theorem overlap_not_serialised :
    (∃ s, Run (Overlap.Step leafNode 0x0A000001)
        (Overlap.start leafNode 0 (responsePacket 1) fun _ ↦ seconds 1) (lateAccess 5) s ∧
      s.Finished ∧
      s.rtable.toList = [(0x0A000009, ⟨⟨2, 0x0A000009, 0xFFFFFFFF⟩, 0x0A000001, seconds 1⟩)] ∧
      ¬ leafNode.Serialised (responsePacket 1) 36 0x0A000001 (fun _ ↦ seconds 1) 0 s.rtable) ∧
    (∃ s, Run (Overlap.Step routedNode 0x0A000001)
        (Overlap.start routedNode 0 (responsePacket 1) fun _ ↦ seconds 1) (lateAccess 8) s ∧
      s.Finished ∧ s.rtable.toList = [(0x0A000009, EntryWts.zeroed)] ∧
      ¬ routedNode.Serialised (responsePacket 1) 36 0x0A000001 (fun _ ↦ seconds 1) 0 s.rtable) ∧
    IsResponse .little (responsePacket 1) ∧ leafNode.getInterface 0x0A000001 = some 0 ∧
    routedNode.getInterface 0x0A000001 = some 0 := by
  refine ⟨?_, ?_, by decide, by decide, by decide +kernel⟩
  · exact exists_not_serialised (by decide +kernel) (by decide +kernel)
  · exact exists_not_serialised (by decide +kernel) (by decide +kernel)

end IpRipStack
