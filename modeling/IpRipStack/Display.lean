import IpRipStack.ShownIds
import IpRipStack.Library.CText

/-!
# What the tables show

`print_route_table` and `print_interfaces` write a line above a table, and a line for each entry and
for each interface that is up: a number and two addresses, which `inet_ntop` writes.

`scanTable` reads such a text with the conversions of `sscanf` and with `inet_pton`. It finds what
was printed, on hosts of either byte order (`tables_read_back`); and the routes it finds are those
by which the node sends packets.
-/

set_option autoImplicit false
set_option relaxedAutoImplicit false

namespace IpRipStack

open MachineWord CScan

/-- The bytes of a `struct in_addr` in memory. -/
def octets (order : ByteOrder) (sAddr : UInt32) : UInt8 × UInt8 × UInt8 × UInt8 :=
  let bytes := store32 order sAddr
  (byteAt bytes 0, byteAt bytes 1, byteAt bytes 2, byteAt bytes 3)

/-- A line of a table: a number and two addresses, with the same white space before both. -/
def rowText (blanks : List UInt8) (n : ℕ) (first second : UInt8 × UInt8 × UInt8 × UInt8) :
    List UInt8 :=
  unsignedText n ++ (blanks ++ (inetNtop first ++ (blanks ++ (inetNtop second ++ [10]))))

/-- The line `cost \t\t dst \t\t loc \n`. -/
def routeHeader : List UInt8 :=
  [99, 111, 115, 116, 32, 9, 9, 32, 100, 115, 116, 32, 9, 9, 32, 108, 111, 99, 32, 10]

/-- The line `id\trem\t\tloc\n`. -/
def interfaceHeader : List UInt8 := [105, 100, 9, 114, 101, 109, 9, 9, 108, 111, 99, 10]

/-- The format `%u \t %s \t %s\n` of `print_route_table`. -/
def EntryWts.row (order : ByteOrder) (ets : EntryWts) : List UInt8 :=
  rowText [32, 9, 32] ets.e.cost.toNat (octets order (htonl order ets.e.address))
    (octets order (htonl order ets.nextHop))

/-- The format `%d\t%s\t%s\n` of `print_interfaces`. -/
def InterfaceRow.text (order : ByteOrder) (row : InterfaceRow) : List UInt8 :=
  rowText [9] row.id (octets order row.remote) (octets order row.localVip)

namespace Node

/-- `RipLayer::print_route_table`. -/
def printRouteTable (node : Node) : List UInt8 :=
  routeHeader ++ (node.rtable.toList.map fun kv ↦ kv.2.row node.order).flatten

/-- What `Node::print_interfaces` writes, the line above the table included. -/
def printInterfacesText (node : Node) : List UInt8 :=
  interfaceHeader ++ (node.printInterfaces.map (InterfaceRow.text node.order)).flatten

end Node

/-! ### Reading a table -/

/-- A line as it is read: its number and its addresses in host order. -/
structure ShownRow where
  number : ℕ
  first : UInt32
  second : UInt32
  deriving DecidableEq, Repr

/-- The conversions `%u %s %s`, the two tokens taken for addresses, and what comes behind white
space. -/
def scanRow (s : List UInt8) : Option (ShownRow × List UInt8) := do
  let (_, number, s) ← scanNumeral s
  let (first, s) ← scanToken s
  let (second, s) ← scanToken s
  let (a, b, c, d) ← inetPton first
  let (a', b', c', d') ← inetPton second
  pure (⟨number, word32 .big a b c d, word32 .big a' b' c' d'⟩, s.dropWhile isSpace)

theorem length_lt_of_scanRow {s rest : List UInt8} {row : ShownRow}
    (h : scanRow s = some (row, rest)) : rest.length < s.length := by
  unfold scanRow at h
  simp only [Option.bind_eq_bind, Option.bind_eq_some_iff, Option.pure_def, Option.some_inj,
    Prod.mk.injEq] at h
  obtain ⟨⟨negative, n, s₁⟩, hnumeral, ⟨first, s₂⟩, hfirst, ⟨second, s₃⟩, hsecond, -, -, -, -, -,
    rfl⟩ := h
  calc (s₃.dropWhile isSpace).length
      ≤ s₃.length := (List.dropWhile_suffix _).length_le
    _ < s₂.length := (scanToken_eq_some_iff.mp hsecond).length_lt
    _ < s₁.length := (scanToken_eq_some_iff.mp hfirst).length_lt
    _ < s.length := (scanNumeral_eq_some_iff.mp hnumeral).length_lt

/-- Lines as long as there are any. -/
def scanRows (s : List UInt8) : List ShownRow :=
  match _hscan : scanRow s with
  | none => []
  | some (row, rest) => row :: scanRows rest
termination_by s.length
decreasing_by exact length_lt_of_scanRow _hscan

/-- The lines of a table, without the line above it. -/
def scanTable (s : List UInt8) : List ShownRow := scanRows ((s.dropWhile fun c ↦ c ≠ 10).drop 1)

/-- The routes of a node as it shows them. -/
def Node.shownRoutes (node : Node) : List ShownRow :=
  node.rtable.toList.map fun kv ↦ ⟨kv.2.e.cost.toNat, kv.2.e.address, kv.2.nextHop⟩

/-- The interfaces of a node as it shows them: those that are up, numbered from zero. -/
def Node.shownInterfaces (node : Node) : List ShownRow :=
  (node.interfaces.filter LinkLayer.isup).mapIdx fun id ifc ↦ ⟨id, ifc.vipRemote, ifc.vipLocal⟩

/-- The next hop that a table of routes shows for a destination, in the last line for it. -/
def shownNextHop (rows : List ShownRow) (dest nextAddr : UInt32) : UInt32 :=
  rows.foldl (fun next row ↦ if row.first = dest then row.second else next) nextAddr

/-! ### Reading back -/

/-- The bytes of an address in memory are read as the address. -/
theorem word32_octets_self (order : ByteOrder) (sAddr : UInt32) {a b c d : UInt8}
    (h : octets order sAddr = (a, b, c, d)) : word32 order a b c d = sAddr := by
  unfold octets at h
  cases order with
  | little =>
    obtain ⟨rfl, rfl, rfl, rfl⟩ : byteOfWord sAddr 0 = a ∧ byteOfWord sAddr 1 = b ∧
        byteOfWord sAddr 2 = c ∧ byteOfWord sAddr 3 = d := by
      simpa [store32] using h
    rw [word32_little_eq, word32_big_byteOfWord]
  | big =>
    obtain ⟨rfl, rfl, rfl, rfl⟩ : byteOfWord sAddr 3 = a ∧ byteOfWord sAddr 2 = b ∧
        byteOfWord sAddr 1 = c ∧ byteOfWord sAddr 0 = d := by
      simpa [store32] using h
    exact word32_big_byteOfWord sAddr

theorem word32_octets (order : ByteOrder) (addr : UInt32) {a b c d : UInt8}
    (h : octets order (htonl order addr) = (a, b, c, d)) : word32 .big a b c d = addr := by
  unfold octets at h
  rw [store32_htonl] at h
  exact word32_octets_self .big addr h

/-- A line is read back, whatever comes behind it but white space. -/
theorem scanRow_rowText {blanks : List UInt8} (hblanks : ∀ c ∈ blanks, isSpace c = true)
    (hne : blanks ≠ []) (order : ByteOrder) (n : ℕ) (first second : UInt32) {rest : List UInt8}
    (hrest : ∀ c ∈ rest.head?, isSpace c = false) :
    scanRow (rowText blanks n (octets order (htonl order first))
      (octets order (htonl order second)) ++ rest) = some (⟨n, first, second⟩, rest) := by
  obtain ⟨⟨a, b, c, d⟩, hfirst⟩ : ∃ octs, octets order (htonl order first) = octs := ⟨_, rfl⟩
  obtain ⟨⟨a', b', c', d'⟩, hsecond⟩ : ∃ octs, octets order (htonl order second) = octs := ⟨_, rfl⟩
  have hblank : ∀ s : List UInt8, ∀ c ∈ (blanks ++ s).head?, isSpace c = true := by
    intro s c hc
    rw [List.head?_append_of_ne_nil _ hne] at hc
    exact hblanks c (List.mem_of_mem_head? hc)
  have hnumeral := numeral_unsignedText n []
    (blanks ++ (inetNtop (a, b, c, d) ++ (blanks ++ (inetNtop (a', b', c', d') ++ 10 :: rest))))
      (fun _ h ↦ absurd h List.not_mem_nil) fun c hc ↦ by
        by_contra hdigit
        have hspace := hblank _ c hc
        rw [not_isSpace_of_isDigit (Bool.not_eq_false _ ▸ hdigit)] at hspace
        exact Bool.false_ne_true hspace
  have htoken := token_inetNtop (a, b, c, d) blanks
    (blanks ++ (inetNtop (a', b', c', d') ++ 10 :: rest)) hblanks (hblank _)
  have htoken' := token_inetNtop (a', b', c', d') blanks (10 :: rest) hblanks
    fun c hc ↦ by rw [← Option.some.inj hc]; rfl
  have hdropped : (10 :: rest).dropWhile isSpace = rest :=
    dropWhile_isSpace_iff.mpr ⟨[10], rfl, List.all_eq_true.mp rfl, hrest⟩
  unfold scanRow rowText
  rw [hfirst, hsecond]
  simp only [List.append_assoc, List.cons_append, List.nil_append] at hnumeral ⊢
  rw [scanNumeral_eq_some_iff.mpr hnumeral]
  simp only [Option.bind_eq_bind, Option.bind_some, scanToken_eq_some_iff.mpr htoken,
    scanToken_eq_some_iff.mpr htoken', inetPton_inetNtop, Option.pure_def, hdropped]
  rw [word32_octets order first hfirst, word32_octets order second hsecond]

/-- A line of two addresses in host order. -/
def ShownRow.text (order : ByteOrder) (blanks : List UInt8) (row : ShownRow) : List UInt8 :=
  rowText blanks row.number (octets order (htonl order row.first))
    (octets order (htonl order row.second))

/-- No line begins with white space. -/
theorem ShownRow.head?_text (order : ByteOrder) (blanks : List UInt8) (rows : List ShownRow) :
    ∀ c ∈ (rows.map (ShownRow.text order blanks)).flatten.head?, isSpace c = false := by
  intro c hc
  cases rows with
  | nil => exact absurd hc (Option.not_mem_none c)
  | cons row rows =>
    rw [List.map_cons, List.flatten_cons] at hc
    unfold ShownRow.text rowText at hc
    rw [List.append_assoc, List.head?_append_of_ne_nil _ (unsignedText_ne_nil _)] at hc
    exact not_isSpace_of_isDigit (isDigit_of_mem_unsignedText (List.mem_of_mem_head? hc))

theorem scanRows_text (order : ByteOrder) {blanks : List UInt8}
    (hblanks : ∀ c ∈ blanks, isSpace c = true) (hne : blanks ≠ []) (rows : List ShownRow) :
    scanRows (rows.map (ShownRow.text order blanks)).flatten = rows := by
  induction rows with
  | nil =>
    unfold scanRows
    rfl
  | cons row rows ih =>
    have hrow := scanRow_rowText hblanks hne order row.number row.first row.second
      (ShownRow.head?_text order blanks rows)
    rw [List.map_cons, List.flatten_cons, scanRows]
    split
    · rename_i hnone
      exact absurd (hrow.symm.trans hnone) (Option.some_ne_none _)
    · rename_i row' rest hsome
      obtain ⟨rfl, rfl⟩ := Prod.mk.inj (Option.some.inj (hrow.symm.trans hsome))
      rw [ih]

namespace Node

theorem printRouteTable_eq (node : Node) : node.printRouteTable =
    routeHeader ++ (node.shownRoutes.map (ShownRow.text node.order [32, 9, 32])).flatten := by
  unfold printRouteTable shownRoutes
  rw [List.map_map]
  rfl

theorem printLoop_text (order : ByteOrder) (ifcs : List LinkLayer) (position id : ℕ) :
    (printLoop order position id ifcs).map (InterfaceRow.text order) =
      ((ifcs.filter LinkLayer.isup).mapIdx fun k ifc ↦
        (⟨id + k, ifc.vipRemote, ifc.vipLocal⟩ : ShownRow)).map (ShownRow.text order [9]) := by
  induction ifcs generalizing position id with
  | nil => rfl
  | cons ifc ifcs ih =>
    unfold printLoop
    cases hup : ifc.isup with
    | false =>
      rw [List.filter_cons_of_neg (by rw [hup]; exact Bool.false_ne_true)]
      exact ih (position + 1) id
    | true =>
      rw [List.filter_cons_of_pos hup, List.mapIdx_cons, List.map_cons]
      have hnext := ih (position + 1) (id + 1)
      simp only [Nat.add_assoc, Nat.add_comm 1] at hnext
      exact congrArg _ hnext

theorem printInterfacesText_eq (node : Node) : node.printInterfacesText =
    interfaceHeader ++ (node.shownInterfaces.map (ShownRow.text node.order [9])).flatten := by
  have hloop := printLoop_text node.order node.interfaces 0 0
  simp only [Nat.zero_add] at hloop
  unfold printInterfacesText printInterfaces shownInterfaces
  rw [hloop]

/-- The tables that a node shows are read back as they were printed, and the node sends packets the
way its table of routes says. -/
theorem tables_read_back (node : Node) :
    scanTable node.printRouteTable = node.shownRoutes ∧
      scanTable node.printInterfacesText = node.shownInterfaces ∧
      ∀ dest nextAddr, node.getNextAddress dest nextAddr =
        shownNextHop (scanTable node.printRouteTable) dest nextAddr := by
  have hroutes : scanTable node.printRouteTable = node.shownRoutes := by
    rw [printRouteTable_eq]
    exact scanRows_text node.order (List.all_eq_true.mp rfl) (List.cons_ne_nil _ _) node.shownRoutes
  have hinterfaces : scanTable node.printInterfacesText = node.shownInterfaces := by
    rw [printInterfacesText_eq]
    exact scanRows_text node.order (List.all_eq_true.mp rfl) (List.cons_ne_nil _ _)
      node.shownInterfaces
  refine ⟨hroutes, hinterfaces, fun dest nextAddr ↦ ?_⟩
  rw [hroutes]
  unfold getNextAddress shownNextHop shownRoutes
  rw [List.foldl_map]

end Node

end IpRipStack
