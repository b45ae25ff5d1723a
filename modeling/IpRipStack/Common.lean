import IpRipStack.Library.MachineWord

/-!
# common.hh

The constants and the data structures the layers share. A `RouteTable` is the `std::map` from
addresses to entries with time stamps: an ordered finite map, walked in the order of its keys.
Addresses are kept in host order inside the stack, as in the source; a `struct entry` in a message
holds its fields in network order, and `Entry.bytes` and `Entry.load` are the copies of such a
structure to and from a buffer.

A clock reading is a `struct timeval`. Every age in the stack is a difference of microsecond counts,
`Timeval.micros`, computed in the unsigned 64-bit type of the source.
-/

set_option autoImplicit false
set_option relaxedAutoImplicit false

namespace IpRipStack

open MachineWord

def maxEntries : ℕ := 64
def refreshTimerVal : ℕ := 12
def updateTimerId : ℕ := 1
def refreshTimerId : ℕ := 2
def defaultAddr : UInt32 := 0xFFFFFFFF

/-- `struct timeval`, as `gettimeofday` fills it in. -/
structure Timeval where
  tvSec : Int64
  tvUsec : Int64
  deriving DecidableEq, Repr

/-- `tv_sec*1000000 + tv_usec`, as the `unsigned long` it is assigned to. -/
def Timeval.micros (tv : Timeval) : UInt64 := (tv.tvSec * 1000000 + tv.tvUsec).toUInt64

/-- `struct entry`. -/
@[ext] structure Entry where
  cost : UInt32
  address : UInt32
  mask : UInt32
  deriving DecidableEq, Repr

/-- `struct entry_wts`: an entry, its next hop and its time stamp. -/
structure EntryWts where
  e : Entry
  nextHop : UInt32
  ts : Timeval
  deriving DecidableEq, Repr

/-- The type of `RipLayer::_rtable`. -/
abbrev RouteTable := Std.ExtTreeMap UInt32 EntryWts

/-- The bytes of a `struct entry` in memory. -/
def Entry.bytes (order : ByteOrder) (e : Entry) : List UInt8 :=
  store32 order e.cost ++ (store32 order e.address ++ store32 order e.mask)

/-- `memcpy(&cur_entry, data, sizeof(struct entry))`. -/
def Entry.load (order : ByteOrder) (data : List UInt8) : Entry where
  cost := load32 order data 0
  address := load32 order data 4
  mask := load32 order data 8

/-- `struct rip_msg`. The array of the source has `maxEntries` slots; the list holds the slots that
are written, so a list longer than that is a write past the end of the structure. -/
structure RipMsg where
  command : UInt16
  numEntries : UInt16
  entries : List Entry
  deriving DecidableEq, Repr

/-- `struct ipmsg`: the interface a packet is to leave by, as its position in the node's list, the
packet's size and its bytes. -/
structure IpMsg where
  ifc : ℕ
  size : ℕ
  packet : List UInt8
  deriving DecidableEq, Repr

/-- `struct rcvmsg`: the length of a received frame, the local address of the interface it arrived
on, and its bytes. -/
structure RcvMsg where
  datalen : ℕ
  next : UInt32
  ippkt : List UInt8
  deriving DecidableEq, Repr

@[simp] theorem length_entry_bytes (order : ByteOrder) (e : Entry) :
    (e.bytes order).length = 12 := by
  simp [Entry.bytes]

/-- The fields of an entry as the peer reads them: what `htonl` and `memcpy` put into a message,
`memcpy` and `ntohl` take out, whatever the orders of the two hosts. -/
theorem ntohl_load_bytes (order order' : ByteOrder) (cost address mask : UInt32)
    (rest : List UInt8) :
    let e := Entry.load order'
      (Entry.bytes order ⟨htonl order cost, htonl order address, htonl order mask⟩ ++ rest)
    ntohl order' e.cost = cost ∧ ntohl order' e.address = address ∧
      ntohl order' e.mask = mask := by
  simp only [Entry.load, Entry.bytes, ntohl_load32, store32_htonl, List.append_assoc]
  refine ⟨load32_store32 [] _ cost, ?_, ?_⟩
  · exact load32_store32 (store32 .big cost) _ address
  · rw [← List.append_assoc]
    exact load32_store32 (store32 .big cost ++ store32 .big address) _ mask

end IpRipStack
