import IpRipStack.Library.CScan

/-!
# The link file

`parse_links` reads a host and a port, then groups of host, port and two addresses until the file
ends. A file is its characters here; there is memory for every node of the list, and the arrays into
which the tokens are read have room for them. What a token is stored as ends with a zero in it, if
there is one.

`readLinks` is the loop. It ends where the last conversion ran into the end of the file, or where
there is nothing but white space left. `readLinks_eq_some_iff` gives its result for every list that
is built so far: the groups that `LinkRows` finds are appended to it, and are counted in eight bits.
-/

set_option autoImplicit false
set_option relaxedAutoImplicit false

namespace IpRipStack

open CScan

/-- An address as `inet_pton` stores it. -/
abbrev InAddr := UInt8 × UInt8 × UInt8 × UInt8

/-- `lnxbody_t`, without the pointer to the next. -/
structure LnxBody where
  remotePhysHost : List UInt8
  remotePhysPort : UInt16
  localVirtIp : InAddr
  remoteVirtIp : InAddr
  deriving DecidableEq, Repr

/-- `lnxinfo_t`, with the list that its body begins. -/
structure LnxInfo where
  localPhysPort : UInt16
  numLinks : UInt8
  body : List LnxBody
  deriving DecidableEq, Repr

/-- What `fscanf` reads of a group. -/
structure ScannedLink where
  rhost : List UInt8
  port : Int
  lv : List UInt8
  rv : List UInt8

/-- `EOF`. -/
def eof : Int := -1

/-- The format `%s %d` of the first two fields: the port. -/
def scanLocal (s : List UInt8) : Option (Int × List UInt8) :=
  (scanToken s).bind fun lhost ↦ scanInt lhost.2

/-- The format `%s %d %s %s` of a group, or the number of conversions where not all are made. -/
def scanLink (s : List UInt8) : Except Int (ScannedLink × List UInt8) :=
  match scanToken s with
  | none => .error eof
  | some (rhost, s) =>
    match scanInt s with
    | none => .error 1
    | some (port, s) =>
      match scanToken s with
      | none => .error 2
      | some (lv, s) =>
        match scanToken s with
        | none => .error 3
        | some (rv, s) => .ok (⟨cString rhost, port, cString lv, cString rv⟩, s)

/-- What is stored of a group, if it is valid. -/
def ScannedLink.body (link : ScannedLink) : Option LnxBody :=
  if link.port < 0 ∨ 0xffff < link.port then none
  else do
    let localVirtIp ← inetPton link.lv
    let remoteVirtIp ← inetPton link.rv
    pure ⟨link.rhost, UInt16.ofNat link.port.toNat, localVirtIp, remoteVirtIp⟩

theorem scanLink_eq_ok_iff {s rest : List UInt8} {link : ScannedLink} :
    scanLink s = .ok (link, rest) ↔
      ∃ (rhost afterHost : List UInt8) (negative : Bool) (n : ℕ)
        (afterPort lv afterLv rv : List UInt8),
        Token s rhost afterHost ∧ Numeral afterHost negative n afterPort ∧
        Token afterPort lv afterLv ∧ Token afterLv rv rest ∧
        link = ⟨cString rhost, storedInt negative n, cString lv, cString rv⟩ := by
  constructor
  · intro h
    unfold scanLink at h
    split at h
    · cases h
    · rename_i rhost afterHost hrhost
      split at h
      · cases h
      · rename_i port afterPort hport
        split at h
        · cases h
        · rename_i lv afterLv hlv
          split at h
          · cases h
          · rename_i rv afterRv hrv
            obtain ⟨rfl, rfl⟩ := Prod.mk.inj (Except.ok.inj h)
            obtain ⟨negative, n, hnumeral, rfl⟩ := scanInt_eq_some_iff.mp hport
            exact ⟨rhost, afterHost, negative, n, afterPort, lv, afterLv, rv,
              scanToken_eq_some_iff.mp hrhost, hnumeral, scanToken_eq_some_iff.mp hlv,
              scanToken_eq_some_iff.mp hrv, rfl⟩
  · rintro ⟨rhost, afterHost, negative, n, afterPort, lv, afterLv, rv, hrhost, hnumeral, hlv, hrv,
      rfl⟩
    have hport : scanInt afterHost = some (storedInt negative n, afterPort) :=
      scanInt_eq_some_iff.mpr ⟨negative, n, hnumeral, rfl⟩
    unfold scanLink
    rw [scanToken_eq_some_iff.mpr hrhost]
    dsimp only
    rw [hport]
    dsimp only
    rw [scanToken_eq_some_iff.mpr hlv]
    dsimp only
    rw [scanToken_eq_some_iff.mpr hrv]

theorem scanLink_eq_eof_iff {s : List UInt8} :
    scanLink s = .error eof ↔ ∀ c ∈ s, isSpace c = true := by
  rw [← scanToken_eq_none_iff]
  unfold scanLink
  split
  · rename_i hnone
    exact iff_of_true rfl hnone
  · rename_i hsome
    refine iff_of_false ?_ (hsome ▸ Option.some_ne_none _)
    split
    · exact fun h ↦ absurd (Except.error.inj h) (by decide)
    · split
      · exact fun h ↦ absurd (Except.error.inj h) (by decide)
      · split
        · exact fun h ↦ absurd (Except.error.inj h) (by decide)
        · intro h
          cases h

theorem length_lt_of_scanLink {s rest : List UInt8} {link : ScannedLink}
    (h : scanLink s = .ok (link, rest)) : rest.length < s.length := by
  obtain ⟨rhost, afterHost, negative, n, afterPort, lv, afterLv, rv, hrhost, hnumeral, hlv, hrv,
    -⟩ := scanLink_eq_ok_iff.mp h
  have hhost := hrhost.length_lt
  have hport := hnumeral.length_lt
  have hlocal := hlv.length_lt
  have hremote := hrv.length_lt
  omega

/-- The loop of `parse_links`. The conversion before it has succeeded, so it has run into the end of
the file if nothing is left. A node is linked in and counted before it is looked at; if it is not
valid the whole list is freed. -/
def readLinks (s : List UInt8) (lnx : LnxInfo) : Option LnxInfo :=
  if s = [] then some lnx
  else
    match _hscan : scanLink s with
    | .error ret => if ret = eof then some lnx else none
    | .ok (link, rest) =>
      match link.body with
      | none => none
      | some body =>
        readLinks rest { lnx with numLinks := lnx.numLinks + 1, body := lnx.body ++ [body] }
termination_by s.length
decreasing_by exact length_lt_of_scanLink _hscan

/-- `parse_links`, for the content of the file. -/
def parseLinks (content : List UInt8) : Option LnxInfo :=
  match scanLocal content with
  | none => none
  | some (port, rest) =>
    if port < 0 ∨ 0xffff < port then none
    else readLinks rest ⟨UInt16.ofNat port.toNat, 0, []⟩

/-! ### What a link file is -/

variable (value : Bool → ℕ → Int)

/-- A group of host, port and two addresses, with a value given to the number that the port is
written as. -/
def LinkRow (s : List UInt8) (numeral : Bool × ℕ) (link : LnxBody) (rest : List UInt8) : Prop :=
  ∃ rhost afterHost afterPort lv afterLv rv : List UInt8, Token s rhost afterHost ∧
    Numeral afterHost numeral.1 numeral.2 afterPort ∧ Token afterPort lv afterLv ∧
    Token afterLv rv rest ∧ cString rhost = link.remotePhysHost ∧
    value numeral.1 numeral.2 = link.remotePhysPort.toNat ∧
    inetPton (cString lv) = some link.localVirtIp ∧ inetPton (cString rv) = some link.remoteVirtIp

/-- Groups one after the other and nothing but white space behind them. -/
inductive LinkRows : List UInt8 → List (Bool × ℕ) → List LnxBody → Prop
  | done {s : List UInt8} (blank : ∀ c ∈ s, isSpace c = true) : LinkRows s [] []
  | row {s rest : List UInt8} {numeral : Bool × ℕ} {numerals : List (Bool × ℕ)} {link : LnxBody}
    {links : List LnxBody} (first : LinkRow value s numeral link rest)
    (more : LinkRows rest numerals links) : LinkRows s (numeral :: numerals) (link :: links)

/-- A host and a port, and groups behind them. The numbers are those that the ports are written
as. -/
def LinkFile (content : List UInt8) (numerals : List (Bool × ℕ)) (port : UInt16)
    (links : List LnxBody) : Prop :=
  ∃ (lhost afterHost rest : List UInt8) (numeral : Bool × ℕ) (others : List (Bool × ℕ)),
    Token content lhost afterHost ∧ Numeral afterHost numeral.1 numeral.2 rest ∧
    value numeral.1 numeral.2 = port.toNat ∧ LinkRows value rest others links ∧
    numerals = numeral :: others

/-- A structure is returned exactly for a link file, with the port and the groups that are written
in it, as many as it says. -/
structure ReadExactly (content : List UInt8) : Prop where
  returns : (parseLinks content).isSome = true ↔
    ∃ numerals port links, LinkFile signed content numerals port links
  links : ∀ lnx, parseLinks content = some lnx →
    (∃ numerals, LinkFile signed content numerals lnx.localPhysPort lnx.body) ∧
      lnx.numLinks.toNat = lnx.body.length

/-- In a file that is read with the numbers cut to an `int`, every port is written as a number of
sixteen bits, and there are fewer than `256` groups. -/
def LinksFit (content : List UInt8) : Prop :=
  ∀ numerals port links, LinkFile storedInt content numerals port links →
    (∀ numeral ∈ numerals, 0 ≤ signed numeral.1 numeral.2 ∧ signed numeral.1 numeral.2 ≤ 0xffff) ∧
      links.length < 256

/-! ### What is read -/

variable {s rest : List UInt8} {link : LnxBody}

/-- A port of sixteen bits is assigned as it is. -/
theorem ofNat_toNat_port_iff {port : Int} {stored : UInt16} (h : ¬ (port < 0 ∨ 0xffff < port)) :
    UInt16.ofNat port.toNat = stored ↔ port = stored.toNat := by
  have hlt := stored.toNat_lt
  rw [← UInt16.toNat_inj, UInt16.toNat_ofNat']
  omega

theorem ScannedLink.body_eq_some_iff {scanned : ScannedLink} :
    scanned.body = some link ↔ scanned.rhost = link.remotePhysHost ∧
      scanned.port = link.remotePhysPort.toNat ∧ inetPton scanned.lv = some link.localVirtIp ∧
      inetPton scanned.rv = some link.remoteVirtIp := by
  have hlt := link.remotePhysPort.toNat_lt
  obtain ⟨host, port, localIp, remoteIp⟩ := link
  unfold ScannedLink.body
  split_ifs with hrange
  · refine iff_of_false id ?_
    rintro ⟨-, hport, -⟩
    dsimp only at hport hlt
    omega
  · simp only [Option.bind_eq_bind, Option.bind_eq_some_iff, Option.pure_def, Option.some_inj,
      LnxBody.mk.injEq, ofNat_toNat_port_iff hrange]
    constructor
    · rintro ⟨localIp', hlocal, remoteIp', hremote, hhost, hport, rfl, rfl⟩
      exact ⟨hhost, hport, hlocal, hremote⟩
    · rintro ⟨hhost, hport, hlocal, hremote⟩
      exact ⟨localIp, hlocal, remoteIp, hremote, hhost, hport, rfl, rfl⟩

/-- A group that is scanned and valid. -/
theorem scanLink_body_iff : (∃ scanned, scanLink s = .ok (scanned, rest) ∧
    scanned.body = some link) ↔ ∃ numeral, LinkRow storedInt s numeral link rest := by
  constructor
  · rintro ⟨scanned, hscan, hbody⟩
    obtain ⟨rhost, afterHost, negative, n, afterPort, lv, afterLv, rv, hrhost, hnumeral, hlv, hrv,
      rfl⟩ := scanLink_eq_ok_iff.mp hscan
    obtain ⟨hhost, hport, hlocal, hremote⟩ := ScannedLink.body_eq_some_iff.mp hbody
    exact ⟨(negative, n), rhost, afterHost, afterPort, lv, afterLv, rv, hrhost, hnumeral, hlv, hrv,
      hhost, hport, hlocal, hremote⟩
  · rintro ⟨⟨negative, n⟩, rhost, afterHost, afterPort, lv, afterLv, rv, hrhost, hnumeral, hlv, hrv,
      hhost, hport, hlocal, hremote⟩
    exact ⟨_, scanLink_eq_ok_iff.mpr ⟨rhost, afterHost, negative, n, afterPort, lv, afterLv, rv,
      hrhost, hnumeral, hlv, hrv, rfl⟩,
      ScannedLink.body_eq_some_iff.mpr ⟨hhost, hport, hlocal, hremote⟩⟩

/-- The structure after groups are linked in. -/
def LnxInfo.append (lnx : LnxInfo) (links : List LnxBody) : LnxInfo :=
  { lnx with
    numLinks := lnx.numLinks + UInt8.ofNat links.length
    body := lnx.body ++ links }

theorem LnxInfo.append_nil (lnx : LnxInfo) : lnx.append [] = lnx := by
  unfold LnxInfo.append
  rw [List.append_nil]
  exact congrArg (fun count ↦ { lnx with numLinks := count }) (UInt8.add_zero lnx.numLinks)

theorem LnxInfo.append_cons (lnx : LnxInfo) (link : LnxBody) (links : List LnxBody) :
    (lnx.append [link]).append links = lnx.append (link :: links) := by
  unfold LnxInfo.append
  dsimp only
  rw [List.append_assoc, List.singleton_append, UInt8.add_assoc, ← UInt8.ofNat_add,
    List.length_singleton, List.length_cons, Nat.add_comm]

variable {value}

/-- Where there is only white space there are no groups. -/
theorem linkRows_blank_iff {numerals : List (Bool × ℕ)} {links : List LnxBody}
    (hblank : ∀ c ∈ s, isSpace c = true) :
    LinkRows value s numerals links ↔ numerals = [] ∧ links = [] := by
  constructor
  · intro hrows
    cases hrows with
    | done _ => exact ⟨rfl, rfl⟩
    | row first _ =>
      obtain ⟨rhost, afterHost, -, -, -, -, hrhost, -⟩ := first
      rw [← scanToken_eq_none_iff] at hblank
      exact absurd (scanToken_eq_some_iff.mpr hrhost) (hblank ▸ (Option.some_ne_none _).symm)
  · rintro ⟨rfl, rfl⟩
    exact .done hblank

/-- Where there is more, the first group comes first. -/
theorem LinkRows.first {numerals : List (Bool × ℕ)} {links : List LnxBody}
    (h : LinkRows storedInt s numerals links) (hmore : scanLink s ≠ .error eof) :
    ∃ scanned rest link numeral numerals' links', scanLink s = .ok (scanned, rest) ∧
      scanned.body = some link ∧ LinkRow storedInt s numeral link rest ∧
      LinkRows storedInt rest numerals' links' ∧ numerals = numeral :: numerals' ∧
      links = link :: links' := by
  cases h with
  | done blank => exact absurd (scanLink_eq_eof_iff.mpr blank) hmore
  | row first more =>
    obtain ⟨scanned, hscan, hbody⟩ := scanLink_body_iff.mpr ⟨_, first⟩
    exact ⟨scanned, _, _, _, _, _, hscan, hbody, first, more, rfl, rfl⟩

/-- The loop appends the groups that follow, and counts them in eight bits. -/
theorem readLinks_eq_some_iff {lnx lnx' : LnxInfo} : readLinks s lnx = some lnx' ↔
    ∃ numerals links, LinkRows storedInt s numerals links ∧ lnx.append links = lnx' := by
  have hended : ∀ (s : List UInt8) (lnx : LnxInfo), (∀ c ∈ s, isSpace c = true) →
      (some lnx = some lnx' ↔
        ∃ numerals links, LinkRows storedInt s numerals links ∧ lnx.append links = lnx') := by
    intro s lnx hblank
    rw [Option.some_inj]
    constructor
    · rintro rfl
      exact ⟨[], [], .done hblank, lnx.append_nil⟩
    · rintro ⟨numerals, links, hrows, rfl⟩
      obtain ⟨-, rfl⟩ := (linkRows_blank_iff hblank).mp hrows
      exact lnx.append_nil.symm
  fun_induction readLinks s lnx with
  | case1 lnx => exact hended [] lnx fun c hc ↦ absurd hc List.not_mem_nil
  | case2 s lnx hne hscan => exact hended s lnx (scanLink_eq_eof_iff.mp hscan)
  | case3 s lnx hne ret hscan hret =>
    refine iff_of_false (Option.some_ne_none _).symm ?_
    rintro ⟨numerals, links, hrows, -⟩
    obtain ⟨scanned, rest, -, -, -, -, hscan', -⟩ :=
      hrows.first fun h ↦ hret (Except.error.inj (hscan.symm.trans h))
    rw [hscan] at hscan'
    cases hscan'
  | case4 s lnx hne scanned rest hscan hbody =>
    refine iff_of_false (Option.some_ne_none _).symm ?_
    rintro ⟨numerals, links, hrows, -⟩
    obtain ⟨scanned', rest', link, -, -, -, hscan', hbody', -⟩ :=
      hrows.first fun h ↦ nomatch hscan.symm.trans h
    cases hscan.symm.trans hscan'
    cases hbody.symm.trans hbody'
  | case5 s lnx hne scanned rest hscan link hbody ih =>
    refine ih.trans ?_
    constructor
    · rintro ⟨numerals, links, hrows, hlnx⟩
      obtain ⟨numeral, hrow⟩ := scanLink_body_iff.mp ⟨scanned, hscan, hbody⟩
      exact ⟨_, _, .row hrow hrows, (lnx.append_cons link links).symm.trans hlnx⟩
    · rintro ⟨numerals, links, hrows, hlnx⟩
      obtain ⟨scanned', rest', link', numeral, numerals', links', hscan', hbody', -, hmore, -,
        rfl⟩ := hrows.first fun h ↦ nomatch hscan.symm.trans h
      cases hscan.symm.trans hscan'
      cases hbody.symm.trans hbody'
      exact ⟨_, _, hmore, (lnx.append_cons link links').trans hlnx⟩

theorem scanLocal_eq_some_iff {content : List UInt8} {port : Int} :
    scanLocal content = some (port, rest) ↔
      ∃ (lhost afterHost : List UInt8) (numeral : Bool × ℕ), Token content lhost afterHost ∧
        Numeral afterHost numeral.1 numeral.2 rest ∧ storedInt numeral.1 numeral.2 = port := by
  unfold scanLocal
  rw [Option.bind_eq_some_iff]
  constructor
  · rintro ⟨⟨lhost, afterHost⟩, htoken, hint⟩
    obtain ⟨negative, n, hnumeral, hport⟩ := scanInt_eq_some_iff.mp hint
    exact ⟨lhost, afterHost, (negative, n), scanToken_eq_some_iff.mp htoken, hnumeral, hport⟩
  · rintro ⟨lhost, afterHost, numeral, htoken, hnumeral, hport⟩
    exact ⟨(lhost, afterHost), scanToken_eq_some_iff.mpr htoken,
      scanInt_eq_some_iff.mpr ⟨_, _, hnumeral, hport⟩⟩

/-- The structure that the loop begins with, after groups are linked in. -/
theorem append_local (port : UInt16) (links : List LnxBody) :
    (⟨port, 0, []⟩ : LnxInfo).append links = ⟨port, UInt8.ofNat links.length, links⟩ :=
  congrArg (fun count ↦ (⟨port, count, links⟩ : LnxInfo)) (UInt8.zero_add _)

/-- What is returned for a file. -/
theorem parseLinks_eq_some_iff {content : List UInt8} {lnx : LnxInfo} :
    parseLinks content = some lnx ↔ ∃ numerals port links,
      LinkFile storedInt content numerals port links ∧
        (⟨port, UInt8.ofNat links.length, links⟩ : LnxInfo) = lnx := by
  unfold parseLinks
  constructor
  · intro hparse
    split at hparse
    · cases hparse
    · rename_i port rest hlocal
      split_ifs at hparse with hrange
      obtain ⟨numerals, links, hrows, rfl⟩ := readLinks_eq_some_iff.mp hparse
      obtain ⟨lhost, afterHost, numeral, htoken, hnumeral, hport⟩ := scanLocal_eq_some_iff.mp hlocal
      have hvalue : port = (UInt16.ofNat port.toNat).toNat := (ofNat_toNat_port_iff hrange).mp rfl
      exact ⟨_, _, links, ⟨lhost, afterHost, rest, numeral, numerals, htoken, hnumeral,
        hport.trans hvalue, hrows, rfl⟩, (append_local _ links).symm⟩
  · rintro ⟨numerals, port, links, ⟨lhost, afterHost, rest, numeral, others, htoken, hnumeral,
      hport, hrows, -⟩, rfl⟩
    have hlt := port.toNat_lt
    have hrange : ¬ ((port.toNat : Int) < 0 ∨ 0xffff < (port.toNat : Int)) := by omega
    rw [scanLocal_eq_some_iff.mpr ⟨lhost, afterHost, numeral, htoken, hnumeral, hport⟩]
    dsimp only
    rw [if_neg hrange, (ofNat_toNat_port_iff hrange).mpr rfl]
    exact readLinks_eq_some_iff.mpr ⟨others, links, hrows, append_local port links⟩

variable {value' : Bool → ℕ → Int}

/-- A group is the same for values that agree on its number. -/
theorem LinkRow.congr {numeral : Bool × ℕ} (h : LinkRow value s numeral link rest)
    (hsame : value numeral.1 numeral.2 = value' numeral.1 numeral.2) :
    LinkRow value' s numeral link rest := by
  obtain ⟨rhost, afterHost, afterPort, lv, afterLv, rv, hrhost, hnumeral, hlv, hrv, hhost, hport,
    haddresses⟩ := h
  exact ⟨rhost, afterHost, afterPort, lv, afterLv, rv, hrhost, hnumeral, hlv, hrv, hhost,
    hsame.symm.trans hport, haddresses⟩

theorem LinkRows.congr {numerals : List (Bool × ℕ)} {links : List LnxBody}
    (h : LinkRows value s numerals links)
    (hsame : ∀ numeral ∈ numerals, value numeral.1 numeral.2 = value' numeral.1 numeral.2) :
    LinkRows value' s numerals links := by
  induction h with
  | done blank => exact .done blank
  | row first more ih =>
    obtain ⟨hfirst, hmore⟩ := List.forall_mem_cons.mp hsame
    exact .row (first.congr hfirst) (ih hmore)

theorem LinkFile.congr {content : List UInt8} {numerals : List (Bool × ℕ)} {port : UInt16}
    {links : List LnxBody} (h : LinkFile value content numerals port links)
    (hsame : ∀ numeral ∈ numerals, value numeral.1 numeral.2 = value' numeral.1 numeral.2) :
    LinkFile value' content numerals port links := by
  obtain ⟨lhost, afterHost, rest, numeral, others, htoken, hnumeral, hport, hrows, rfl⟩ := h
  obtain ⟨hfirst, hothers⟩ := List.forall_mem_cons.mp hsame
  exact ⟨lhost, afterHost, rest, numeral, others, htoken, hnumeral, hfirst.symm.trans hport,
    hrows.congr hothers, rfl⟩

/-- The numbers are those of the file, whatever value they are given. -/
theorem LinkRows.numerals_eq {numerals numerals' : List (Bool × ℕ)} {links links' : List LnxBody}
    (h : LinkRows value s numerals links) (h' : LinkRows value' s numerals' links') :
    numerals = numerals' := by
  induction h generalizing numerals' links' with
  | done blank => exact ((linkRows_blank_iff blank).mp h').1.symm
  | row first more ih =>
    cases h' with
    | done blank => exact absurd ((linkRows_blank_iff blank).mp (.row first more)).1 (by simp)
    | row first' more' =>
      obtain ⟨rhost, afterHost, afterPort, lv, afterLv, rv, hrhost, hnumeral, hlv, hrv, -⟩ := first
      obtain ⟨rhost', afterHost', afterPort', lv', afterLv', rv', hrhost', hnumeral', hlv', hrv',
        -⟩ := first'
      obtain ⟨-, rfl⟩ := hrhost.unique hrhost'
      obtain ⟨hnegative, hn, rfl⟩ := hnumeral.unique hnumeral'
      obtain ⟨-, rfl⟩ := hlv.unique hlv'
      obtain ⟨-, rfl⟩ := hrv.unique hrv'
      rw [Prod.ext hnegative hn, ih more']

theorem LinkFile.numerals_eq {content : List UInt8} {numerals numerals' : List (Bool × ℕ)}
    {port port' : UInt16} {links links' : List LnxBody}
    (h : LinkFile value content numerals port links)
    (h' : LinkFile value' content numerals' port' links') : numerals = numerals' := by
  obtain ⟨lhost, afterHost, rest, numeral, others, htoken, hnumeral, -, hrows, rfl⟩ := h
  obtain ⟨lhost', afterHost', rest', numeral', others', htoken', hnumeral', -, hrows', rfl⟩ := h'
  obtain ⟨-, rfl⟩ := htoken.unique htoken'
  obtain ⟨hnegative, hn, rfl⟩ := hnumeral.unique hnumeral'
  rw [Prod.ext hnegative hn, hrows.numerals_eq hrows']

/-- The ports of a link file are numbers of sixteen bits. -/
theorem LinkRows.signed_range {numerals : List (Bool × ℕ)} {links : List LnxBody}
    (h : LinkRows signed s numerals links) :
    ∀ numeral ∈ numerals, 0 ≤ signed numeral.1 numeral.2 ∧ signed numeral.1 numeral.2 ≤ 0xffff := by
  induction h with
  | done blank => exact fun numeral hmem ↦ absurd hmem List.not_mem_nil
  | @row s rest numeral numerals link links first more ih =>
    obtain ⟨-, -, -, -, -, -, -, -, -, -, -, hport, -⟩ := first
    have hlt := link.remotePhysPort.toNat_lt
    exact List.forall_mem_cons.mpr ⟨by omega, ih⟩

theorem LinkFile.signed_range {content : List UInt8} {numerals : List (Bool × ℕ)} {port : UInt16}
    {links : List LnxBody} (h : LinkFile signed content numerals port links) :
    ∀ numeral ∈ numerals, 0 ≤ signed numeral.1 numeral.2 ∧ signed numeral.1 numeral.2 ≤ 0xffff := by
  obtain ⟨_, _, _, numeral, others, -, -, hport, hrows, rfl⟩ := h
  have hlt := port.toNat_lt
  exact List.forall_mem_cons.mpr ⟨by omega, hrows.signed_range⟩

/-- A number of sixteen bits is stored as it is. -/
theorem storedInt_eq_signed {numeral : Bool × ℕ}
    (h : 0 ≤ signed numeral.1 numeral.2 ∧ signed numeral.1 numeral.2 ≤ 0xffff) :
    storedInt numeral.1 numeral.2 = signed numeral.1 numeral.2 :=
  storedInt_eq (by omega) (by omega)

/-- For every content of the file: a link file and nothing else is read, group by group and with
their number, if and only if no port is cut to one of sixteen bits and no group is the `256`th. -/
theorem readExactly_iff (content : List UInt8) : ReadExactly content ↔ LinksFit content := by
  constructor
  · rintro ⟨-, hlinks⟩ numerals port links hfile
    obtain ⟨⟨numerals', hexact⟩, hcount⟩ :=
      hlinks _ (parseLinks_eq_some_iff.mpr ⟨numerals, port, links, hfile, rfl⟩)
    refine ⟨hfile.numerals_eq hexact ▸ hexact.signed_range, ?_⟩
    have hlt := (UInt8.ofNat links.length).toNat_lt
    dsimp only at hcount
    omega
  · intro hfit
    refine ⟨⟨fun hreturned ↦ ?_, ?_⟩, fun lnx hparse ↦ ?_⟩
    · obtain ⟨lnx, hparse⟩ := Option.isSome_iff_exists.mp hreturned
      obtain ⟨numerals, port, links, hfile, -⟩ := parseLinks_eq_some_iff.mp hparse
      obtain ⟨hports, -⟩ := hfit numerals port links hfile
      exact ⟨numerals, port, links,
        hfile.congr fun numeral hmem ↦ storedInt_eq_signed (hports numeral hmem)⟩
    · rintro ⟨numerals, port, links, hexact⟩
      have hfile : LinkFile storedInt content numerals port links := hexact.congr fun numeral hmem ↦
        (storedInt_eq_signed (hexact.signed_range numeral hmem)).symm
      exact Option.isSome_iff_exists.mpr
        ⟨_, parseLinks_eq_some_iff.mpr ⟨numerals, port, links, hfile, rfl⟩⟩
    · obtain ⟨numerals, port, links, hfile, rfl⟩ := parseLinks_eq_some_iff.mp hparse
      obtain ⟨hports, hcount⟩ := hfit numerals port links hfile
      refine ⟨⟨numerals,
        hfile.congr fun numeral hmem ↦ storedInt_eq_signed (hports numeral hmem)⟩, ?_⟩
      dsimp only
      rw [UInt8.toNat_ofNat']
      omega

/-- The file `h 4294967297`. -/
def widePort : List UInt8 := [104, 32, 52, 50, 57, 52, 57, 54, 55, 50, 57, 55]

/-- The group `h 1 0.0.0.0 0.0.0.0` on a line of its own. -/
def linkGroup : List UInt8 :=
  [10, 104, 32, 49, 32, 48, 46, 48, 46, 48, 46, 48, 32, 48, 46, 48, 46, 48, 46, 48]

/-- The file `h 1` and `256` groups behind it. -/
def longLinks : List UInt8 := [104, 32, 49] ++ (List.replicate 256 linkGroup).flatten

theorem linkRow_linkGroup (hrest : ∀ c ∈ rest.head?, isSpace c = true) :
    LinkRow storedInt (linkGroup ++ rest) (false, 1) ⟨[104], 1, (0, 0, 0, 0), (0, 0, 0, 0)⟩
      rest := by
  have hblank : ∀ c ∈ [(32 : UInt8)], isSpace c = true := List.forall_mem_singleton.mpr rfl
  have haddress : ∀ c ∈ [(48 : UInt8), 46, 48, 46, 48, 46, 48], isSpace c = false := by
    simp only [List.forall_mem_cons, List.not_mem_nil, false_implies, implies_true, and_true]
    decide
  refine ⟨[104], [32, 49, 32, 48, 46, 48, 46, 48, 46, 48, 32, 48, 46, 48, 46, 48, 46, 48] ++ rest,
    [32, 48, 46, 48, 46, 48, 46, 48, 32, 48, 46, 48, 46, 48, 46, 48] ++ rest,
    [48, 46, 48, 46, 48, 46, 48], [32, 48, 46, 48, 46, 48, 46, 48] ++ rest,
    [48, 46, 48, 46, 48, 46, 48], ?_, ?_, ?_, ?_, rfl, by decide, by decide, by decide⟩
  · exact ⟨[10], rfl, List.forall_mem_singleton.mpr rfl, List.cons_ne_nil _ _,
      List.forall_mem_singleton.mpr rfl, fun c hc ↦ Option.some.inj hc ▸ rfl⟩
  · exact ⟨[32], [], [49], rfl, hblank, Or.inl rfl, List.cons_ne_nil _ _,
      List.forall_mem_singleton.mpr rfl, fun c hc ↦ Option.some.inj hc ▸ rfl, rfl⟩
  · exact ⟨[32], rfl, hblank, List.cons_ne_nil _ _, haddress, fun c hc ↦ Option.some.inj hc ▸ rfl⟩
  · exact ⟨[32], rfl, hblank, List.cons_ne_nil _ _, haddress, hrest⟩

/-- Any number of these groups is read. -/
theorem linkRows_replicate (n : ℕ) : ∃ numerals links,
    LinkRows storedInt (List.replicate n linkGroup).flatten numerals links ∧ links.length = n := by
  induction n with
  | zero => exact ⟨[], [], .done fun c hc ↦ absurd hc List.not_mem_nil, rfl⟩
  | succ n ih =>
    obtain ⟨numerals, links, hrows, hcount⟩ := ih
    have hrest : ∀ c ∈ (List.replicate n linkGroup).flatten.head?, isSpace c = true := by
      cases n with
      | zero => exact fun c hc ↦ nomatch hc
      | succ n => exact fun c hc ↦ Option.some.inj hc ▸ rfl
    exact ⟨_, _, .row (linkRow_linkGroup hrest) hrows, congrArg Nat.succ hcount⟩

/-- The port of the first file is returned as `1`, and the `256` groups of the second are returned
with the number `0`. -/
theorem link_files_not_exact : parseLinks widePort = some ⟨1, 0, []⟩ ∧ ¬ ReadExactly widePort ∧
    (∃ links, parseLinks longLinks = some ⟨1, 0, links⟩ ∧ links.length = 256) ∧
      ¬ ReadExactly longLinks := by
  have htoken : Token widePort [104] (widePort.drop 1) :=
    scanToken_eq_some_iff.mp (by decide +kernel)
  have hnumeral : Numeral (widePort.drop 1) false 4294967297 [] :=
    scanNumeral_eq_some_iff.mp (by decide +kernel)
  have hwide : parseLinks widePort = some ⟨1, 0, []⟩ :=
    parseLinks_eq_some_iff.mpr ⟨_, 1, [], ⟨_, _, _, (false, 4294967297), [], htoken, hnumeral,
      by decide, .done fun c hc ↦ absurd hc List.not_mem_nil, rfl⟩, rfl⟩
  have hlong : ∃ links, parseLinks longLinks = some ⟨1, 0, links⟩ ∧ links.length = 256 := by
    obtain ⟨numerals, links, hrows, hcount⟩ := linkRows_replicate 256
    refine ⟨links, parseLinks_eq_some_iff.mpr ⟨_, 1, links, ⟨[104], longLinks.drop 1, _, (false, 1),
      numerals, ?_, ?_, by decide, hrows, rfl⟩, ?_⟩, hcount⟩
    · exact ⟨[], rfl, fun c hc ↦ absurd hc List.not_mem_nil, List.cons_ne_nil _ _,
        List.forall_mem_singleton.mpr rfl, fun c hc ↦ Option.some.inj hc ▸ rfl⟩
    · exact ⟨[32], [], [49], rfl, List.forall_mem_singleton.mpr rfl, Or.inl rfl,
        List.cons_ne_nil _ _, List.forall_mem_singleton.mpr rfl,
        fun c hc ↦ Option.some.inj hc ▸ rfl, rfl⟩
    · rw [hcount]
      rfl
  refine ⟨hwide, fun h ↦ ?_, hlong, fun h ↦ ?_⟩
  · obtain ⟨⟨numerals, lhost, afterHost, rest, numeral, others, htoken', hnumeral', hport, -⟩, -⟩ :=
      h.links _ hwide
    obtain ⟨-, rfl⟩ := htoken.unique htoken'
    obtain ⟨hnegative, hn, -⟩ := hnumeral.unique hnumeral'
    rw [← hnegative, ← hn] at hport
    exact absurd hport (by decide)
  · obtain ⟨links, hparse, hcount⟩ := hlong
    have hnumLinks : (0 : UInt8).toNat = links.length := (h.links _ hparse).2
    rw [hcount] at hnumLinks
    exact absurd hnumLinks (by decide)

end IpRipStack
