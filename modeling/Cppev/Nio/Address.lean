import Cppev.Lib.CString
import Cppev.Nio.Udp

/-!
# The bytes of a socket address

What `set_ip_port` and `set_path` put into a `sockaddr_storage`, and what `query_ip_port_family` and
the kernel take out of it, with the layout that Linux has. The conversions `inet_pton` and `inet_ntop`
are parameters.

* `queryIpPortFamily_setIpPort`: what comes back, for a text that `inet_ntop` would give, too.
* `toSockAddr_setIpPort`: the same functions on addresses without bytes, as in `Cppev.Nio.Udp`.
* `faithful_iff`: the port comes back if and only if it fits in 16 bits, and a path is denoted by its
  address if and only if it fits in 107 bytes and is not empty.
-/

namespace Cppev

/-- The size of an address in memory. -/
def Family.inetWidth : Family → Int
  | .ipv4 => 4
  | .ipv6 => 16
  | .local => 0

/-- `inet_pton` and `inet_ntop`. -/
structure InetText where
  /-- What `inet_pton` returns, and what it stores. -/
  pton : Family → String → Int × List Byte
  ntop : Family → List Byte → Option String
  length_pton : ∀ f ip, (pton f ip).1 ≠ 0 → (pton f ip).1 ≠ -1 →
    (pton f ip).2.length = f.inetWidth

/-- The text that `inet_ntop` gives for what `inet_pton` makes of it. -/
structure InetText.Canonical (t : InetText) (f : Family) (ip : String) : Prop where
  inet : f ≠ .local
  pton : (t.pton f ip).1 = 1
  ntop : t.ntop f (t.pton f ip).2 = some ip

/-- `struct sockaddr_storage`. -/
structure SockaddrStorage where
  bytes : List Byte
  length_bytes : bytes.length = 128

namespace SockaddrStorage

/-! ## The encoders and the decoder

Byte by byte, at the offsets of `sockaddr_in`, `sockaddr_in6` and `sockaddr_un`. Ports are in the
order of the network. -/

/-- Fill a field. -/
def put (a : SockaddrStorage) (pos : Int) (bs : List Byte) : SockaddrStorage :=
  ⟨blit a.bytes pos bs, by rw [length_blit, a.length_bytes]⟩

/-- The field of `n` bytes at `pos`. -/
def get (a : SockaddrStorage) (pos n : Int) : List Byte := slice a.bytes pos n

/-- `memset(&addr, 0, sizeof(addr))`. -/
def zero : SockaddrStorage := ⟨List.replicate 128 0, List.length_replicate ..⟩

/-- `fmap_`, as the two bytes of `ss_family`. -/
def fmap : Family → List Byte
  | .ipv4 => [2, 0]
  | .ipv6 => [10, 0]
  | .local => [1, 0]

/-- `faddr_len_`. -/
def faddrLen : Family → Int
  | .ipv4 => 16
  | .ipv6 => 28
  | .local => 110

/-- `addr.ss_family = fmap_.at(family_)`. -/
def setFamily (a : SockaddrStorage) (f : Family) : SockaddrStorage := a.put 0 (fmap f)

/-- The case of `switch (addr.ss_family)`; `none` is the default. -/
def ssFamily (a : SockaddrStorage) : Option Family :=
  if a.get 0 2 = fmap .ipv4 then some .ipv4
  else if a.get 0 2 = fmap .ipv6 then some .ipv6
  else none

/-- `htons`, of an `int` that is cut to 16 bits. -/
def htons (port : Int) : List Byte :=
  [UInt8.ofNat (port % 65536 / 256).toNat, UInt8.ofNat (port % 256).toNat]

def ntohs (bs : List Byte) : Int := 256 * (bs.getD 0 0).toNat + (bs.getD 1 0).toNat

/-- `inet_pton` into the field at `pos`. -/
def inetPton (a : SockaddrStorage) (t : InetText) (errno : Errno) (f : Family) (ip : String)
    (pos : Int) : Except Exn SockaddrStorage :=
  let (rtn, bs) := t.pton f ip
  if rtn = 0 then .error (.logicError "inet_pton error")
  else if rtn = -1 then .error (.systemError "inet_pton error" errno)
  else .ok (a.put pos bs)

/-- `set_ip_port`. A null pointer is `none`. -/
def setIpPort (a : SockaddrStorage) (t : InetText) (errno : Errno) (ip : Option String)
    (port : Int) : Except Exn SockaddrStorage :=
  match a.ssFamily with
  | some .ipv4 =>
    let a := a.put 2 (htons port)
    match ip with
    | some ip => a.inetPton t errno .ipv4 ip 4
    | none => .ok (a.put 4 (List.replicate 4 0))
  | some .ipv6 =>
    let a := a.put 2 (htons port)
    match ip with
    | some ip => a.inetPton t errno .ipv6 ip 8
    | none => .ok (a.put 8 (List.replicate 16 0))
  | _ => .error (.logicError "unknown socket family")

/-- `set_path`, into the 108 bytes of `sun_path`. -/
def setPath (a : SockaddrStorage) (path : List Byte) : SockaddrStorage :=
  a.put 2 (strncpy 0 path 107)

/-- `query_ip_port_family`. -/
def queryIpPortFamily (a : SockaddrStorage) (t : InetText) (errno : Errno) : Except Exn Host :=
  let inetNtop (f : Family) (bs : List Byte) : Except Exn Host :=
    match t.ntop f bs with
    | some ip => .ok (ip, ntohs (a.get 2 2), f)
    | none => .error (.systemError "inet_ntop error" errno)
  match a.ssFamily with
  | some .ipv4 => inetNtop .ipv4 (a.get 4 4)
  | some .ipv6 => inetNtop .ipv6 (a.get 8 16)
  | _ => .error (.logicError "unknown socket family")

/-- `SUN_LEN`. A path without an end would be read beyond the address. -/
def sunLen (a : SockaddrStorage) : Option Int :=
  (strlen 0 (a.bytes.drop 2)).map fun n : Nat => 2 + (n : Int)

/-- The address that `bind` passes to the kernel. -/
def bind (t : InetText) (errno : Errno) (f : Family) (ip : Option String) (port : Int) :
    Except Exn (List Byte) := do
  let addr ← (zero.setFamily f).setIpPort t errno ip port
  return addr.get 0 (faddrLen f)

/-- The address that `connect` passes to the kernel. -/
def connect (t : InetText) (errno : Errno) (f : Family) (ip : Option String) (port : Int) :
    Except Exn (List Byte) := do
  let addr ← (zero.setFamily f).setIpPort t errno ip port
  return addr.get 0 (faddrLen f)

/-- The address that `bind_unix` passes to the kernel. -/
def bindUnix (f : Family) (path : List Byte) : Option (List Byte) := do
  let addr := (zero.setFamily f).setPath path
  return addr.get 0 (← addr.sunLen)

/-- The address that `connect_unix` passes to the kernel. -/
def connectUnix (f : Family) (path : List Byte) : Option (List Byte) := do
  let addr := (zero.setFamily f).setPath path
  let addrLen ← addr.sunLen
  return addr.get 0 addrLen

/-- The path that an address denotes for the kernel. Without a first byte it has no name, with a NUL
there the name is not a path. -/
def unixPath (addr : List Byte) : Option (List Byte) :=
  if addr.take 2 = fmap .local then
    match addr.drop 2 with
    | [] => none
    | c :: path => if c = 0 then none else some ((c :: path).takeWhile fun c => c ≠ 0)
  else none

/-! ## Fields

Reading a field that was written gives it back; reading another one gives what was there. -/

variable {a : SockaddrStorage} {t : InetText} {errno : Errno} {f : Family} {ip : String}
  {port pos pos' n : Int} {bs path : List Byte}

theorem get_put (hpos : 0 ≤ pos) (hlen : pos + bs.length ≤ 128) :
    (a.put pos bs).get pos bs.length = bs :=
  slice_blit hpos (by rw [a.length_bytes]; exact hlen)

theorem get_put_of_disjoint (h : pos' + n ≤ pos ∨ pos + bs.length ≤ pos') :
    (a.put pos bs).get pos' n = a.get pos' n :=
  slice_blit_of_disjoint h

theorem ssFamily_put (hpos : 2 ≤ pos) : (a.put pos bs).ssFamily = a.ssFamily := by
  unfold ssFamily
  rw [get_put_of_disjoint (.inl hpos)]

theorem length_fmap (f : Family) : (fmap f).length = 2 := by cases f <;> rfl

theorem get_setFamily (a : SockaddrStorage) (f : Family) : (a.setFamily f).get 0 2 = fmap f := by
  have hfield : (a.put 0 (fmap f)).get 0 (fmap f).length = fmap f :=
    get_put (Int.le_refl 0) (by rw [length_fmap]; decide)
  rwa [length_fmap] at hfield

/-- And read back. Of `local` there is no decoding. -/
theorem ssFamily_setFamily (a : SockaddrStorage) (f : Family) :
    (a.setFamily f).ssFamily = if f = .local then none else some f := by
  unfold ssFamily
  rw [get_setFamily]
  cases f <;> rfl

theorem length_htons (port : Int) : (htons port).length = 2 := rfl

theorem ntohs_htons (port : Int) : ntohs (htons port) = port % 65536 := by
  have hi : (port % 65536 / 256).toNat < 256 := by omega
  have lo : (port % 256).toNat < 256 := by omega
  simp only [ntohs, htons, List.getD_cons_zero, List.getD_cons_succ, UInt8.toNat_ofNat',
    Nat.reducePow, Nat.mod_eq_of_lt hi, Nat.mod_eq_of_lt lo]
  omega

/-! ## There and back

An address whose text is canonical is decoded to what it was made from, with its port cut to 16
bits. -/

theorem inetPton_of_canonical (h : t.Canonical f ip) :
    a.inetPton t errno f ip pos = .ok (a.put pos (t.pton f ip).2) := by
  simp [inetPton, h.pton]

/-- Where the fields are, for a text that is accepted. -/
theorem setIpPort_of_canonical (h : t.Canonical f ip) (port : Int) :
    (a.setFamily f).setIpPort t errno (some ip) port =
      .ok (((a.setFamily f).put 2 (htons port)).put (if f = .ipv4 then 4 else 8) (t.pton f ip).2) := by
  have hinet := h.inet
  unfold setIpPort
  rw [ssFamily_setFamily, if_neg hinet]
  cases f with
  | ipv4 => exact inetPton_of_canonical h
  | ipv6 => exact inetPton_of_canonical h
  | «local» => exact absurd rfl hinet

/-- What a decoder finds in these fields. -/
structure Holds (t : InetText) (a : SockaddrStorage) (f : Family) (ip : String) (port : Int) :
    Prop where
  family : a.ssFamily = some f
  port : a.get 2 2 = htons port
  text : t.ntop f (a.get (if f = .ipv4 then 4 else 8) f.inetWidth) = some ip

theorem holds_of_canonical (h : t.Canonical f ip) (port : Int) :
    Holds t (((a.setFamily f).put 2 (htons port)).put (if f = .ipv4 then 4 else 8) (t.pton f ip).2)
      f ip port := by
  have hlen := t.length_pton f ip (by simp [h.pton]) (by simp [h.pton])
  have hinet := h.inet
  have hpos : 4 ≤ (if f = .ipv4 then 4 else 8 : Int) := by split <;> decide
  have hend : (if f = .ipv4 then 4 else 8 : Int) + (t.pton f ip).2.length ≤ 128 := by
    rw [hlen]
    cases f <;> decide
  refine ⟨?_, ?_, ?_⟩
  · rw [ssFamily_put (by omega), ssFamily_put (Int.le_refl 2), ssFamily_setFamily, if_neg hinet]
  · rw [get_put_of_disjoint (.inl (by omega))]
    exact get_put (by decide) (by rw [length_htons]; decide)
  · rw [← hlen, get_put (by omega) hend, h.ntop]

/-- What `query_ip_port_family` makes of the fields. -/
theorem Holds.queryIpPortFamily (h : Holds t a f ip port) (hinet : f ≠ .local) :
    a.queryIpPortFamily t errno = .ok (ip, port % 65536, f) := by
  have htext := h.text
  unfold SockaddrStorage.queryIpPortFamily
  rw [h.family, h.port, ntohs_htons]
  cases f with
  | ipv4 =>
      simp only [if_pos, Family.inetWidth] at htext
      simp only [htext]
  | ipv6 =>
      simp only [reduceCtorEq, if_false, Family.inetWidth] at htext
      simp only [htext]
  | «local» => exact absurd rfl hinet

/-- The address without its bytes. -/
def toSockAddr (a : SockaddrStorage) (t : InetText) : SockAddr :=
  match a.ssFamily with
  | some .ipv4 => (t.ntop .ipv4 (a.get 4 4)).elim .unknown fun ip => .inet ip (ntohs (a.get 2 2))
  | some .ipv6 => (t.ntop .ipv6 (a.get 8 16)).elim .unknown fun ip => .inet6 ip (ntohs (a.get 2 2))
  | _ => .unknown

theorem Holds.toSockAddr (h : Holds t a f ip port) :
    a.toSockAddr t = match f with
      | .ipv4 => .inet ip (port % 65536)
      | .ipv6 => .inet6 ip (port % 65536)
      | .local => .unknown := by
  have htext := h.text
  unfold SockaddrStorage.toSockAddr
  rw [h.family, h.port, ntohs_htons]
  cases f with
  | ipv4 =>
      simp only [if_pos, Family.inetWidth] at htext
      simp only [htext, Option.elim_some]
  | ipv6 =>
      simp only [reduceCtorEq, if_false, Family.inetWidth] at htext
      simp only [htext, Option.elim_some]
  | «local» => rfl

/-- The bytes are what `Cppev.setIpPort` says. -/
theorem toSockAddr_setIpPort (h : t.Canonical f ip) (port : Int) :
    ((a.setFamily f).setIpPort t errno (some ip) port).map (fun a => a.toSockAddr t) =
      Cppev.setIpPort (fun f ip => (t.pton f ip).1) errno f (some ip) port := by
  have hinet := h.inet
  rw [setIpPort_of_canonical h]
  refine (congrArg Except.ok (holds_of_canonical h port).toSockAddr).trans ?_
  cases f with
  | ipv4 | ipv6 => simp [Cppev.setIpPort, h.pton]
  | «local» => exact absurd rfl hinet

/-- So the text and the port come back. -/
theorem queryIpPortFamily_setIpPort (h : t.Canonical f ip) (port : Int) :
    ((a.setFamily f).setIpPort t errno (some ip) port).bind
      (fun a => a.queryIpPortFamily t errno) = .ok (ip, port % 65536, f) := by
  rw [setIpPort_of_canonical h]
  exact (holds_of_canonical h port).queryIpPortFamily h.inet

/-! ## Paths

`set_path` copies 107 bytes at most, which leaves the last byte zero in cleared memory; the length
of the address comes from `strlen`. -/

/-- The bytes from `sun_path` on. -/
theorem drop_setPath (a : SockaddrStorage) (f : Family) (path : List Byte) :
    ((a.setFamily f).setPath path).bytes.drop 2 = strncpy 0 path 107 ++ a.bytes.drop 109 := by
  have hlen : ((strncpy 0 path 107).length : Int) = 107 := by rw [length_strncpy]; rfl
  have hroom : 2 + ((strncpy 0 path 107).length : Int) ≤ (a.setFamily f).bytes.length := by
    rw [hlen, (a.setFamily f).length_bytes]
    decide
  have hdrop := drop_blit (by decide) hroom
  have hrest : (a.setFamily f).bytes.drop 109 = a.bytes.drop 109 := by
    have ha := drop_eq_slice (by decide) (by decide)
      (show (109 : Int) + 19 = a.bytes.length by rw [a.length_bytes]; decide)
    have hb := drop_eq_slice (by decide) (by decide)
      (show (109 : Int) + 19 = (a.setFamily f).bytes.length by
        rw [(a.setFamily f).length_bytes]; decide)
    exact hb.trans ((slice_blit_of_disjoint (by rw [length_fmap]; decide)).trans ha.symm)
  rw [hlen] at hdrop
  exact hdrop.trans (by rw [← hrest]; rfl)

/-- The length, for a path that is short enough and for one that is not. -/
theorem sunLen_setPath (a : SockaddrStorage) (f : Family) (hpath : 0 ∉ path) :
    ((a.setFamily f).setPath path).sunLen =
      if path.length < 107 then some (2 + (path.length : Int))
      else (strlen 0 (a.bytes.drop 109)).map fun n : Nat => 2 + ((107 + n : Nat) : Int) := by
  rw [sunLen, drop_setPath, strlen_strncpy hpath]
  split
  · rfl
  · rw [Option.map_map]
    rfl

/-- An address of this length. -/
theorem get_setPath (a : SockaddrStorage) (f : Family) (path : List Byte) {n : Nat} (hn : n ≤ 126) :
    ((a.setFamily f).setPath path).get 0 (2 + n) =
      fmap f ++ (strncpy 0 path 107 ++ a.bytes.drop 109).take n := by
  have hfamily : ((a.setFamily f).setPath path).get 0 2 = fmap f := by
    rw [setPath, get_put_of_disjoint (.inl (by decide)), get_setFamily]
  rw [get, slice_add _ _ (by decide) (Int.natCast_nonneg n)]
  congr 1
  · have hslice := drop_eq_slice (by decide) (by decide)
      (show (2 : Int) + 126 = ((a.setFamily f).setPath path).bytes.length by
        rw [((a.setFamily f).setPath path).length_bytes]; decide)
    have htake := slice_take ((a.setFamily f).setPath path).bytes 2 (Int.natCast_nonneg n)
      (show (n : Int) ≤ 126 by omega)
    rw [← drop_setPath a f path]
    exact htake.symm.trans (by rw [← hslice]; rfl)

/-- In cleared memory the path always ends, after 107 bytes at most. -/
theorem sunLen_zero (f : Family) (hpath : 0 ∉ path) :
    ((zero.setFamily f).setPath path).sunLen = some (2 + ((min path.length 107 : Nat) : Int)) := by
  have hrest : strlen 0 (zero.bytes.drop 109) = some 0 := by decide
  rw [sunLen_setPath zero f hpath]
  split
  case isTrue h => rw [Nat.min_eq_left (by omega)]
  case isFalse h =>
    rw [hrest, Nat.min_eq_right (by omega)]
    rfl

/-- The first 107 bytes of a path. -/
theorem take_strncpy (path rest : List Byte) :
    (strncpy 0 path 107 ++ rest).take (min path.length 107) = path.take 107 := by
  have hlen : min path.length 107 = (path.take 107).length := by
    rw [List.length_take, Nat.min_comm]
  rw [strncpy, List.append_assoc, hlen, List.take_left]

theorem bindUnix_eq (f : Family) (hpath : 0 ∉ path) :
    bindUnix f path = some (fmap f ++ path.take 107) := by
  simp only [bindUnix, sunLen_zero f hpath, Option.bind_eq_bind, Option.bind_some]
  rw [get_setPath zero f path (by omega), take_strncpy]
  rfl

theorem connectUnix_eq (f : Family) (path : List Byte) : connectUnix f path = bindUnix f path := rfl

/-- What the kernel takes for the path. -/
theorem unixPath_append (f : Family) (hpath : 0 ∉ path) :
    unixPath (fmap f ++ path) = if f = .local ∧ path ≠ [] then some path else none := by
  have htake : (fmap f ++ path).take 2 = fmap f := List.take_left' (length_fmap f)
  have hdrop : (fmap f ++ path).drop 2 = path := List.drop_left' (length_fmap f)
  have hlocal : fmap f = fmap .local ↔ f = .local := by cases f <;> decide
  rw [unixPath, htake, hdrop]
  simp only [hlocal]
  cases path with
  | nil => simp
  | cons c path =>
      have hall : ∀ b ∈ c :: path, decide (b ≠ 0) = true := fun b hb =>
        decide_eq_true (ne_of_mem_of_not_mem hb hpath)
      have hc : c ≠ 0 := of_decide_eq_true (hall c List.mem_cons_self)
      have hwhole : (c :: path).takeWhile (fun b => decide (b ≠ 0)) = c :: path := by
        rw [← List.append_nil (c :: path), List.takeWhile_append_of_pos hall, List.takeWhile_nil]
      simp only [hc, if_false, hwhole]
      by_cases hf : f = .local <;> simp [hf]

/-! ## The theorem -/

/-- A path of at most 107 bytes is the one that is meant. -/
theorem unixPath_bindUnix (f : Family) (hpath : 0 ∉ path) :
    (bindUnix f path).bind unixPath = some path ↔
      f = .local ∧ 1 ≤ path.length ∧ path.length ≤ 107 := by
  have hshort : 0 ∉ path.take 107 := fun h => hpath (List.mem_of_mem_take h)
  rw [bindUnix_eq f hpath, Option.bind_some, unixPath_append f hshort]
  constructor
  · intro h
    split at h
    case isFalse => cases h
    case isTrue hboth =>
      have hlen := congrArg List.length (Option.some.inj h)
      have hpos := List.length_pos_of_ne_nil hboth.2
      rw [List.length_take] at hlen hpos
      exact ⟨hboth.1, by omega, by omega⟩
  · rintro ⟨hf, hpos, hlen⟩
    rw [List.take_of_length_le hlen, if_pos ⟨hf, List.ne_nil_of_length_pos hpos⟩]

/-- **Addresses.** A port comes back from the address if and only if it is one; a path is what its
address denotes if and only if the family is `local` and it has 1 to 107 bytes; and two paths have the
same address if and only if they begin with the same 107 bytes. -/
theorem faithful_iff (t : InetText) (errno : Errno) :
    (∀ (a : SockaddrStorage) f ip port, t.Canonical f ip →
      (((a.setFamily f).setIpPort t errno (some ip) port).bind
          (fun a => a.queryIpPortFamily t errno) = .ok (ip, port, f) ↔
        0 ≤ port ∧ port ≤ 65535)) ∧
      (∀ f path, 0 ∉ path →
        ((bindUnix f path).bind unixPath = some path ↔
          f = .local ∧ 1 ≤ path.length ∧ path.length ≤ 107) ∧
        ((connectUnix f path).bind unixPath = some path ↔
          f = .local ∧ 1 ≤ path.length ∧ path.length ≤ 107)) ∧
      ∀ f path path', 0 ∉ path → 0 ∉ path' →
        (bindUnix f path = bindUnix f path' ↔ path.take 107 = path'.take 107) := by
  refine ⟨fun a f ip port h => ?_, fun f path hpath => ?_, fun f path path' hpath hpath' => ?_⟩
  · rw [queryIpPortFamily_setIpPort h]
    constructor
    · intro heq
      have hport := (Prod.mk.inj (Prod.mk.inj (Except.ok.inj heq)).2).1
      omega
    · intro hrange
      rw [Int.emod_eq_of_lt hrange.1 (by omega)]
  · rw [connectUnix_eq]
    exact ⟨unixPath_bindUnix f hpath, unixPath_bindUnix f hpath⟩
  · rw [bindUnix_eq f hpath, bindUnix_eq f hpath', Option.some_inj, List.append_cancel_left_eq]

/-- `inet_pton` and `inet_ntop` on two texts. -/
def twoTexts : InetText where
  pton f ip :=
    if f = .ipv4 ∧ ip = "10.0.0.7" then (1, [10, 0, 0, 7])
    else if f = .ipv6 ∧ ip = "fe80::1" then (1, [254, 128, 0, 0, 0, 0, 0, 0, 0, 0, 0, 0, 0, 0, 0, 1])
    else (0, [])
  ntop f bs :=
    if f = .ipv4 ∧ bs = [10, 0, 0, 7] then some "10.0.0.7"
    else if f = .ipv6 ∧ bs = [254, 128, 0, 0, 0, 0, 0, 0, 0, 0, 0, 0, 0, 0, 0, 1] then some "fe80::1"
    else none
  length_pton := by
    intro f ip hzero _
    by_cases h4 : f = .ipv4 ∧ ip = "10.0.0.7"
    · obtain ⟨rfl, rfl⟩ := h4
      decide
    · by_cases h6 : f = .ipv6 ∧ ip = "fe80::1"
      · obtain ⟨rfl, rfl⟩ := h6
        decide
      · exact absurd (by simp only [if_neg h4, if_neg h6]) hzero

/-- The last port, and a short path. -/
theorem faithful_iff_twoTexts :
    ((zero.setFamily .ipv6).setIpPort twoTexts .EAGAIN (some "fe80::1") 65535).bind
        (fun a => a.queryIpPortFamily twoTexts .EAGAIN) = .ok ("fe80::1", 65535, .ipv6) ∧
      (bindUnix .local [47, 115]).bind unixPath = some [47, 115] := by
  obtain ⟨hport, hpath, -⟩ := faithful_iff twoTexts .EAGAIN
  have hcanonical : twoTexts.Canonical .ipv6 "fe80::1" := ⟨nofun, by decide, by decide⟩
  exact ⟨(hport zero .ipv6 "fe80::1" 65535 hcanonical).mpr (by decide),
    (hpath .local [47, 115] (by decide)).1.mpr (by decide)⟩

/-- Port 65616 becomes port 80, and a path of 108 bytes loses the last one. -/
theorem cut_off :
    (¬ ∀ (a : SockaddrStorage) f ip port, twoTexts.Canonical f ip →
      ((a.setFamily f).setIpPort twoTexts .EAGAIN (some ip) port).bind
        (fun a => a.queryIpPortFamily twoTexts .EAGAIN) = .ok (ip, port, f)) ∧
      ¬ ∀ path, 0 ∉ path → (bindUnix .local path).bind unixPath = some path := by
  constructor
  · intro h
    have hcanonical : twoTexts.Canonical .ipv4 "10.0.0.7" := ⟨nofun, by decide, by decide⟩
    have hcut := h zero .ipv4 "10.0.0.7" 65616 hcanonical
    rw [queryIpPortFamily_setIpPort hcanonical] at hcut
    exact absurd hcut (by decide)
  · intro h
    have hpath : (0 : Byte) ∉ List.replicate 108 97 := by decide
    have hlen := ((unixPath_bindUnix .local hpath).mp (h _ hpath)).2.2
    exact absurd hlen (by decide)

end SockaddrStorage

end Cppev
