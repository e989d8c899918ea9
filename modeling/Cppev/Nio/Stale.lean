import Cppev.Nio.Address

/-!
# Destinations on uninitialised memory

`send` and `send_unix` of `nsockudp` fill in an address without clearing it first, as `bind` and
`connect` do. `stale` is what the memory has held before.

* `get_eq_get_iff`: two addresses for the same destination differ where nothing has been filled in.
* `independent_iff`: the kernel gets the same address as from `bind` if and only if these bytes are
  zero; a path has such a byte only when it fills its field.
-/

namespace Cppev

namespace SockaddrStorage

/-- The address that `send` passes to the kernel. -/
def send (stale : SockaddrStorage) (t : InetText) (errno : Errno) (f : Family) (ip : Option String)
    (port : Int) : Except Exn (List Byte) := do
  let addr ← (stale.setFamily f).setIpPort t errno ip port
  return addr.get 0 (faddrLen f)

/-- The address that `send_unix` passes to the kernel; `none` if `SUN_LEN` reads beyond it. -/
def sendUnix (stale : SockaddrStorage) (f : Family) (path : List Byte) : Option (List Byte) := do
  let addr := (stale.setFamily f).setPath path
  return addr.get 0 (← addr.sunLen)

/-- The fields that `set_ip_port` leaves as they are: `sin_zero`, or `sin6_flowinfo` and
`sin6_scope_id`. -/
def untouched (f : Family) (j : Int) : Prop :=
  match f with
  | .ipv4 => 8 ≤ j ∧ j < 16
  | .ipv6 => (4 ≤ j ∧ j < 8) ∨ (24 ≤ j ∧ j < 28)
  | .local => False

/-- These fields are zero. -/
def Blank (f : Family) (stale : SockaddrStorage) : Prop :=
  ∀ j, untouched f j → peek stale.bytes j = 0

variable {a b : SockaddrStorage} {t : InetText} {errno : Errno} {f : Family} {ip : Option String}
  {port : Int} {path : List Byte}

/-! ## Two contents of the memory -/

/-- What is filled in is the same, what is not stays different. -/
theorem peek_put_eq_iff {pos j : Int} {bs : List Byte} (hpos : 0 ≤ pos)
    (hlen : pos + bs.length ≤ 128) :
    peek (a.put pos bs).bytes j = peek (b.put pos bs).bytes j ↔
      (pos ≤ j ∧ j < pos + bs.length) ∨ peek a.bytes j = peek b.bytes j :=
  peek_blit_eq_iff hpos (by rw [a.length_bytes]; exact hlen) (by rw [b.length_bytes]; exact hlen)

/-- How a text that is accepted is stored. -/
theorem inetPton_eq_ok {pos : Int} {ip : String} {a' : SockaddrStorage}
    (h : a.inetPton t errno f ip pos = .ok a') :
    ∃ bs : List Byte, bs.length = f.inetWidth ∧
      ∀ b : SockaddrStorage, b.inetPton t errno f ip pos = .ok (b.put pos bs) := by
  unfold inetPton at h
  simp only at h
  split at h
  case isTrue => cases h
  case isFalse hzero =>
    split at h
    case isTrue => cases h
    case isFalse hminus =>
      refine ⟨_, t.length_pton f ip hzero hminus, fun b => ?_⟩
      simp only [inetPton, if_neg hzero, if_neg hminus]

/-- A destination that is accepted is the same fields in every memory. -/
theorem setIpPort_eq_ok {a' : SockaddrStorage}
    (h : (a.setFamily f).setIpPort t errno ip port = .ok a') :
    f ≠ .local ∧ ∃ bs : List Byte, bs.length = f.inetWidth ∧
      ∀ b : SockaddrStorage, (b.setFamily f).setIpPort t errno ip port =
        .ok (((b.setFamily f).put 2 (htons port)).put (if f = .ipv4 then 4 else 8) bs) := by
  have hfamily : ∀ b : SockaddrStorage, (b.setFamily f).ssFamily = if f = .local then none else some f :=
    fun b => ssFamily_setFamily b f
  unfold setIpPort at h
  rw [hfamily] at h
  unfold setIpPort
  simp only [hfamily]
  cases f with
  | ipv4 =>
      refine ⟨nofun, ?_⟩
      cases ip with
      | none => exact ⟨List.replicate 4 0, rfl, fun b => rfl⟩
      | some ip =>
          obtain ⟨bs, hlen, hall⟩ := inetPton_eq_ok h
          exact ⟨bs, hlen, fun b => hall _⟩
  | ipv6 =>
      refine ⟨nofun, ?_⟩
      cases ip with
      | none => exact ⟨List.replicate 16 0, rfl, fun b => rfl⟩
      | some ip =>
          obtain ⟨bs, hlen, hall⟩ := inetPton_eq_ok h
          exact ⟨bs, hlen, fun b => hall _⟩
  | «local» => cases h

/-- Two addresses for the same destination. -/
theorem get_eq_get_iff (hinet : f ≠ .local) {bs : List Byte} (hlen : bs.length = f.inetWidth) :
    (((a.setFamily f).put 2 (htons port)).put (if f = .ipv4 then 4 else 8) bs).get 0 (faddrLen f) =
      (((b.setFamily f).put 2 (htons port)).put (if f = .ipv4 then 4 else 8) bs).get 0 (faddrLen f) ↔
    ∀ j, untouched f j → peek a.bytes j = peek b.bytes j := by
  have hpos : 0 ≤ (if f = .ipv4 then 4 else 8 : Int) := by split <;> decide
  have hend : (if f = .ipv4 then 4 else 8 : Int) + bs.length ≤ 128 := by
    rw [hlen]
    cases f <;> decide
  have hfields : ∀ j, untouched f j ↔ (0 ≤ j ∧ j < 0 + faddrLen f) ∧
      ¬ (((if f = .ipv4 then 4 else 8) ≤ j ∧ j < (if f = .ipv4 then 4 else 8) + f.inetWidth) ∨
        (2 ≤ j ∧ j < 2 + 2) ∨ (0 ≤ j ∧ j < 0 + 2)) := by
    intro j
    cases f with
    | ipv4 =>
        simp only [if_pos, Family.inetWidth, faddrLen, untouched]
        omega
    | ipv6 =>
        simp only [reduceCtorEq, if_false, Family.inetWidth, faddrLen, untouched]
        omega
    | «local» => exact absurd rfl hinet
  refine slice_eq_iff.trans (forall_congr' fun j => ?_)
  rw [peek_put_eq_iff hpos hend, peek_put_eq_iff (by decide) (by rw [length_htons]; decide),
    setFamily, setFamily, peek_put_eq_iff (by decide) (by rw [length_fmap]; decide), hlen,
    length_htons, length_fmap, hfields j, ← or_assoc, ← or_assoc, or_assoc (a := _ ∧ _)]
  constructor
  · rintro h ⟨⟨hlo, hlt⟩, hout⟩
    exact (h hlo hlt).resolve_left hout
  · intro h hlo hlt
    exact or_iff_not_imp_left.mpr fun hout => h ⟨⟨hlo, hlt⟩, hout⟩

/-! ## The theorem -/

theorem peek_zero (j : Int) : peek zero.bytes j = 0 := peek_replicate_default 128 j

/-- `send` gives the kernel what `bind` does. -/
theorem send_eq_bind_iff {addr : List Byte} (h : bind t errno f ip port = .ok addr)
    (stale : SockaddrStorage) : send stale t errno f ip port = bind t errno f ip port ↔
      Blank f stale := by
  unfold bind at h
  cases hset : (zero.setFamily f).setIpPort t errno ip port with
  | error e =>
      rw [hset] at h
      cases h
  | ok a =>
      obtain ⟨hinet, bs, hlen, hall⟩ := setIpPort_eq_ok hset
      have hsend : ∀ b : SockaddrStorage, send b t errno f ip port = .ok
          ((((b.setFamily f).put 2 (htons port)).put (if f = .ipv4 then 4 else 8) bs).get 0
            (faddrLen f)) := by
        intro b
        rw [send, hall]
        rfl
      have hbind : bind t errno f ip port = send zero t errno f ip port := rfl
      rw [hbind, hsend, hsend, Except.ok.injEq, get_eq_get_iff hinet hlen]
      simp only [peek_zero]
      rfl

/-- Byte 109 is the last one of `sun_path`. -/
theorem drop_last (stale : SockaddrStorage) :
    ∃ rest, stale.bytes.drop 109 = peek stale.bytes 109 :: rest := by
  have hslice := drop_eq_slice (by decide) (by decide)
    (show (109 : Int) + (1 + 18) = stale.bytes.length by rw [stale.length_bytes]; decide)
  rw [slice_add _ _ (by decide) (by decide)] at hslice
  exact ⟨_, hslice⟩

/-- `send_unix` gives the kernel what `bind_unix` does. -/
theorem sendUnix_eq_bindUnix_iff (stale : SockaddrStorage) (f : Family) (hpath : 0 ∉ path) :
    sendUnix stale f path = bindUnix f path ↔ path.length < 107 ∨ peek stale.bytes 109 = 0 := by
  rw [bindUnix_eq f hpath]
  simp only [sendUnix, sunLen_setPath stale f hpath, Option.bind_eq_bind]
  by_cases hshort : path.length < 107
  · refine iff_of_true ?_ (.inl hshort)
    have htake := take_strncpy path (stale.bytes.drop 109)
    rw [Nat.min_eq_left (by omega)] at htake
    rw [if_pos hshort, Option.bind_some, get_setPath stale f path (by omega), htake]
    rfl
  · obtain ⟨rest, hrest⟩ := drop_last stale
    have hlast : peek stale.bytes 109 = 0 ↔ strlen 0 (stale.bytes.drop 109) = some 0 := by
      rw [hrest]
      exact strlen_cons_eq_zero_iff.symm
    rw [if_neg hshort, or_iff_right hshort, hlast]
    constructor
    · intro h
      obtain ⟨len, hlen, heq⟩ := Option.bind_eq_some_iff.mp h
      obtain ⟨n, hn, rfl⟩ := Option.map_eq_some_iff.mp hlen
      have hcount := congrArg List.length (Option.some.inj heq)
      simp only [get, length_slice, List.length_append, length_fmap, List.length_take] at hcount
      rw [hn]
      congr 1
      omega
    · intro h
      have htake := take_strncpy path (stale.bytes.drop 109)
      rw [Nat.min_eq_right (by omega)] at htake
      rw [h, Option.map_some, Option.bind_some, get_setPath stale f path (by decide), htake]
      rfl

/-- **Destinations.** Whatever two contents the memory has, `send` gives the kernel the same address for
both, and the one that `bind` gives, if and only if the fields nobody fills in are zero; and so does
`send_unix` if and only if the path has fewer than 107 bytes, or the byte behind it is zero. -/
theorem independent_iff (t : InetText) (errno : Errno) (stale stale' : SockaddrStorage) (f : Family) :
    (∀ ip port addr, bind t errno f ip port = .ok addr →
      connect t errno f ip port = bind t errno f ip port ∧
        (send stale t errno f ip port = send stale' t errno f ip port ∧
            send stale t errno f ip port = bind t errno f ip port ↔
          Blank f stale ∧ Blank f stale')) ∧
      ∀ path, 0 ∉ path →
        connectUnix f path = bindUnix f path ∧
          (sendUnix stale f path = sendUnix stale' f path ∧ sendUnix stale f path = bindUnix f path ↔
            path.length < 107 ∨ (peek stale.bytes 109 = 0 ∧ peek stale'.bytes 109 = 0)) := by
  have hpair : ∀ {α : Type} (x y z : α), x = y ∧ x = z ↔ x = z ∧ y = z := by
    intro α x y z
    constructor
    · rintro ⟨rfl, rfl⟩
      exact ⟨rfl, rfl⟩
    · rintro ⟨rfl, rfl⟩
      exact ⟨rfl, rfl⟩
  refine ⟨fun ip port addr h => ⟨rfl, ?_⟩, fun path hpath => ⟨rfl, ?_⟩⟩
  · rw [hpair, send_eq_bind_iff h, send_eq_bind_iff h]
  · rw [hpair, sendUnix_eq_bindUnix_iff stale f hpath, sendUnix_eq_bindUnix_iff stale' f hpath,
      or_and_left]

/-- Memory in which every byte is set. -/
def filled : SockaddrStorage := ⟨List.replicate 128 255, List.length_replicate ..⟩

theorem bind_twoTexts :
    ∃ addr, bind twoTexts .EAGAIN .ipv6 (some "fe80::1") 80 = .ok addr := by
  have hcanonical : twoTexts.Canonical .ipv6 "fe80::1" := ⟨nofun, by decide, by decide⟩
  rw [bind, setIpPort_of_canonical hcanonical]
  exact ⟨_, rfl⟩

/-- A short path does not depend on what the memory holds. -/
theorem independent_iff_filled :
    sendUnix filled .local [47, 115] = sendUnix zero .local [47, 115] ∧
      sendUnix filled .local [47, 115] = bindUnix .local [47, 115] ∧
      send zero twoTexts .EAGAIN .ipv6 (some "fe80::1") 80 =
        bind twoTexts .EAGAIN .ipv6 (some "fe80::1") 80 := by
  obtain ⟨-, hpath⟩ := independent_iff twoTexts .EAGAIN filled zero .local
  obtain ⟨hsame, hbind⟩ := (hpath [47, 115] (by decide)).2.mpr (.inl (by decide))
  obtain ⟨addr, haddr⟩ := bind_twoTexts
  have hblank : Blank .ipv6 zero := fun j _ => peek_zero j
  exact ⟨hsame, hbind, (((independent_iff twoTexts .EAGAIN zero zero .ipv6).1 _ _ _ haddr).2.mpr
    ⟨hblank, hblank⟩).2⟩

/-- The scope of an IPv6 address, and a path of 107 bytes. -/
theorem stale_sent :
    (¬ ∀ stale stale' : SockaddrStorage, ∀ ip port addr,
      bind twoTexts .EAGAIN .ipv6 ip port = .ok addr →
        send stale twoTexts .EAGAIN .ipv6 ip port = send stale' twoTexts .EAGAIN .ipv6 ip port) ∧
      ¬ ∀ (stale : SockaddrStorage) path, 0 ∉ path →
        sendUnix stale .local path = bindUnix .local path := by
  have hset : peek filled.bytes 24 = 255 ∧ peek filled.bytes 109 = 255 := by decide
  constructor
  · intro h
    obtain ⟨addr, haddr⟩ := bind_twoTexts
    have hblank := (send_eq_bind_iff haddr filled).mp (h filled zero _ _ _ haddr)
    exact absurd (hset.1.symm.trans (hblank 24 (.inr (by decide)))) (by decide)
  · intro h
    have hpath : (0 : Byte) ∉ List.replicate 107 97 := by decide
    rcases (sendUnix_eq_bindUnix_iff filled .local hpath).mp (h filled _ hpath) with hlt | hzero
    · exact absurd hlt (by decide)
    · exact absurd (hset.2.symm.trans hzero) (by decide)

end SockaddrStorage

end Cppev
