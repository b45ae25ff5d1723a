import IpRipStack.RouteLife

/-!
# The age of a route

The expiry sweep is meant to erase the routes whose time stamp lies more than twelve seconds before
the clock reading it takes. It computes the age as a difference of microsecond counts in an unsigned
64-bit type, which is the difference of the times modulo `2 ^ 64` (`toNat_micros_sub`). A stamp that
is later than the reading, since the clock was set back or since the thread that stamped it read the
clock in between, has an age that wraps to an immense one. `refresh_exact_iff` says exactly when the
sweep erases what it should, and `ageTold_iff` what that comes to for times that are not hundreds of
thousands of years apart.
-/

set_option autoImplicit false
set_option relaxedAutoImplicit false

namespace IpRipStack

open MachineWord OrderedMap

/-- The time a clock reading stands for, in microseconds. -/
def Timeval.time (tv : Timeval) : Int := tv.tvSec.toInt * 1000000 + tv.tvUsec.toInt

/-- The time stamp lies more than the refresh time before the clock reading. -/
def Stale (curtv stamp : Timeval) : Prop :=
  stamp.time + refreshTimerVal * 1000000 < curtv.time

/-- The sweep erases the stale routes for addresses that are not the node's own, and leaves every
other route as it is. -/
def Node.RefreshExact (node : Node) (curtv : Timeval) : Prop :=
  ∀ (a : UInt32) (ets : EntryWts), (node.refreshRouteTable curtv).rtable[a]? = some ets ↔
    node.rtable[a]? = some ets ∧ (node.isMyInterface a = true ∨ ¬ Stale curtv ets.ts)

/-- The unsigned difference tells whether the stamp is stale: it is not later than the reading and
less than `2 ^ 64` microseconds before it, or as far beyond these bounds as makes no difference. -/
def AgeTold (curtv stamp : Timeval) : Prop :=
  let age := curtv.time - stamp.time
  (0 ≤ age ∧ age < 2 ^ 64) ∨ (age < 0 ∧ age % 2 ^ 64 ≤ refreshTimerVal * 1000000) ∨
    (2 ^ 64 ≤ age ∧ refreshTimerVal * 1000000 < age % 2 ^ 64)

/-- The times are less than `2 ^ 64` microseconds, but for twelve seconds, apart. -/
def Near (curtv stamp : Timeval) : Prop :=
  curtv.time - stamp.time < 2 ^ 64 ∧
    stamp.time - curtv.time < 2 ^ 64 - refreshTimerVal * 1000000

/-! ### Times and counts -/

theorem toNat_toUInt64 (x : Int64) : (x.toUInt64.toNat : Int) = x.toInt % 2 ^ 64 := by
  have hbits : x.toInt = Int.bmod x.toUInt64.toNat (2 ^ 64) := by
    rw [← Int64.toInt_toBitVec, BitVec.toInt_eq_toNat_bmod, Int64.toNat_toBitVec]
  have hlt := x.toUInt64.toNat_lt
  have hresidue : (x.toUInt64.toNat : Int).bmod (2 ^ 64) % 2 ^ 64 = x.toUInt64.toNat % 2 ^ 64 :=
    Int.bmod_emod
  rw [hbits, hresidue, Int.emod_eq_of_lt (Int.natCast_nonneg _) (by omega)]

/-- A count is the time modulo `2 ^ 64`. -/
theorem toNat_micros (tv : Timeval) : (tv.micros.toNat : Int) = tv.time % 2 ^ 64 := by
  have hmillion : (1000000 : Int64).toInt = 1000000 := rfl
  have hsec : (tv.tvSec * 1000000).toInt % 2 ^ 64 = tv.tvSec.toInt * 1000000 % 2 ^ 64 := by
    rw [Int64.toInt_mul, hmillion]
    exact Int.bmod_emod
  have hsum : (tv.tvSec * 1000000 + tv.tvUsec).toInt % 2 ^ 64 =
      ((tv.tvSec * 1000000).toInt + tv.tvUsec.toInt) % 2 ^ 64 := by
    rw [Int64.toInt_add]
    exact Int.bmod_emod
  unfold Timeval.micros Timeval.time
  rw [toNat_toUInt64, hsum]
  omega

/-- The difference of two counts is the difference of the times modulo `2 ^ 64`. -/
theorem toNat_micros_sub (curtv stamp : Timeval) :
    ((curtv.micros - stamp.micros).toNat : Int) = (curtv.time - stamp.time) % 2 ^ 64 := by
  have hcur := toNat_micros curtv
  have hstamp := toNat_micros stamp
  have hlt := stamp.micros.toNat_lt
  rw [UInt64.toNat_sub]
  omega

theorem expired_iff (curtv stamp : Timeval) :
    Expired curtv stamp ↔ refreshTimerVal * 1000000 < (curtv.time - stamp.time) % 2 ^ 64 := by
  have hbound : (UInt64.ofNat (refreshTimerVal * 1000000)).toNat = 12000000 := rfl
  have hdifference := toNat_micros_sub curtv stamp
  unfold Expired refreshTimerVal
  rw [gt_iff_lt, UInt64.lt_iff_toNat_lt]
  change (UInt64.ofNat (refreshTimerVal * 1000000)).toNat < _ ↔ _
  rw [hbound]
  omega

/-- The test of the sweep finds out whether a stamp is stale. -/
theorem expired_iff_stale_iff (curtv stamp : Timeval) :
    (Expired curtv stamp ↔ Stale curtv stamp) ↔ AgeTold curtv stamp := by
  rw [expired_iff]
  unfold Stale AgeTold refreshTimerVal
  dsimp only
  omega

/-- Between times that are near, the difference tells the age exactly when the stamp is not later
than the reading. -/
theorem ageTold_iff {curtv stamp : Timeval} (h : Near curtv stamp) :
    AgeTold curtv stamp ↔ stamp.time ≤ curtv.time := by
  unfold Near refreshTimerVal at h
  unfold AgeTold refreshTimerVal
  dsimp only
  omega

/-! ### The sweep -/

/-- For every table and clock reading the sweep erases exactly the stale routes, exactly when the
unsigned difference tells the age of every route it can erase. Where the time stamps are near the
reading, this is when none of them is later. -/
theorem Node.refresh_exact_iff (node : Node) (curtv : Timeval) :
    (node.RefreshExact curtv ↔ ∀ (a : UInt32) (ets : EntryWts), node.rtable[a]? = some ets →
      node.isMyInterface a = false → AgeTold curtv ets.ts) ∧
    ((∀ (a : UInt32) (ets : EntryWts), node.rtable[a]? = some ets →
      node.isMyInterface a = false → Near curtv ets.ts) →
        (node.RefreshExact curtv ↔ ∀ (a : UInt32) (ets : EntryWts), node.rtable[a]? = some ets →
          node.isMyInterface a = false → ets.ts.time ≤ curtv.time)) := by
  have hkept : ∀ (a : UInt32) (ets : EntryWts),
      (node.refreshRouteTable curtv).rtable[a]? = some ets ↔
        node.rtable[a]? = some ets ∧ (node.isMyInterface a = true ∨ ¬ Expired curtv ets.ts) :=
    fun a ets ↦ refreshRouteTable_eq_some
  have hall : node.RefreshExact curtv ↔ ∀ (a : UInt32) (ets : EntryWts),
      node.rtable[a]? = some ets → node.isMyInterface a = false → AgeTold curtv ets.ts := by
    constructor
    · intro hexact a ets hets hother
      have hsame := (hkept a ets).symm.trans (hexact a ets)
      rw [hother, and_iff_right hets, and_iff_right hets, or_iff_right Bool.false_ne_true,
        or_iff_right Bool.false_ne_true] at hsame
      exact (expired_iff_stale_iff curtv ets.ts).mp (not_iff_not.mp hsame)
    · intro htold a ets
      rw [hkept]
      refine and_congr_right fun hets ↦ or_congr_right' fun hother ↦ not_congr ?_
      exact (expired_iff_stale_iff curtv ets.ts).mpr
        (htold a ets hets (Bool.eq_false_iff.mpr hother))
  refine ⟨hall, fun hnear ↦ hall.trans ?_⟩
  constructor
  · intro htold a ets hets hother
    exact (ageTold_iff (hnear a ets hets hother)).mp (htold a ets hets hother)
  · intro hearlier a ets hets hother
    exact (ageTold_iff (hnear a ets hets hother)).mpr (hearlier a ets hets hother)

/-- The node with a route for `10.0.0.9` that was stamped at second a hundred. -/
def stampedNode : Node :=
  leafNode.receiveFrame (responsePacket 1) 0x0A000001 [] fun _ ↦ seconds 100

/-- The time stamps in its table. -/
theorem stampedNode_stamps {a : UInt32} {ets : EntryWts} (h : stampedNode.rtable[a]? = some ets) :
    ets.ts = seconds 0 ∨ ets.ts = seconds 100 := by
  have hall : ∀ kv ∈ stampedNode.rtable.toList, kv.2.ts = seconds 0 ∨ kv.2.ts = seconds 100 := by
    decide +kernel
  exact hall (a, ets) (Std.ExtTreeMap.mem_toList_iff_getElem?_eq_some.mpr h)

/-- A sweep that takes a later reading. -/
theorem stampedNode_swept : stampedNode.RefreshExact (seconds 113) := by
  refine ((stampedNode.refresh_exact_iff (seconds 113)).2 fun a ets hets _ ↦ ?_).mpr
    fun a ets hets _ ↦ ?_
  · unfold Near
    rcases stampedNode_stamps hets with hts | hts
    · rw [hts]
      decide
    · rw [hts]
      decide
  · rcases stampedNode_stamps hets with hts | hts
    · rw [hts]
      decide
    · rw [hts]
      decide

/-- The clock is set back by a second: the sweep erases a route whose time stamp is later than the
reading it takes. -/
theorem fresh_route_erased :
    stampedNode.rtable[(0x0A000009 : UInt32)]? =
        some ⟨⟨2, 0x0A000009, 0xFFFFFFFF⟩, 0x0A000001, seconds 100⟩ ∧
      stampedNode.isMyInterface 0x0A000009 = false ∧
      ¬ Stale (seconds 99) (seconds 100) ∧
      (stampedNode.refreshRouteTable (seconds 99)).rtable[(0x0A000009 : UInt32)]? = none ∧
      ¬ stampedNode.RefreshExact (seconds 99) := by
  have hroute : stampedNode.rtable[(0x0A000009 : UInt32)]? =
      some ⟨⟨2, 0x0A000009, 0xFFFFFFFF⟩, 0x0A000001, seconds 100⟩ := by decide +kernel
  have hfresh : ¬ Stale (seconds 99) (seconds 100) := by
    unfold Stale
    decide
  have herased : (stampedNode.refreshRouteTable (seconds 99)).rtable[(0x0A000009 : UInt32)]? =
      none := by decide +kernel
  refine ⟨hroute, by decide, hfresh, herased, fun hexact ↦ ?_⟩
  have hkept := (hexact 0x0A000009 _).mpr ⟨hroute, Or.inr hfresh⟩
  rw [herased] at hkept
  exact absurd hkept.symm (Option.some_ne_none _)

end IpRipStack
