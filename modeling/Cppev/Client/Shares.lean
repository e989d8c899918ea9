import Cppev.Client.Accounts
import Cppev.Utils.Split

/-!
# The shares of the connectors

`tcp_client::add` with the conversions of C++: in `t / conts_.size()` and `t % conts_.size()` the
`int` becomes a `size_t`, and what comes out becomes an `int` again. The counts in `hosts_` are
`int`s; a sum that is none has no result.

* `shared_iff`: for which counts every connector gets its part and the parts add up.
* `add_eq_tcpClient`: for those that are not negative, this is `TcpClient.add`.
-/

namespace Cppev

/-! ## The connectors, with the conversions -/

/-- `connector::add`, as far as `hosts_` goes. -/
def Connector.addInt (c : Connector) (h : Host) (t : Int) : Option Connector :=
  if t ≠ 0 ∧ c.hosts.has h = true ∧ ¬ IsInt (Tally.total c.hosts h + t) then none
  else some (c.add h t)

namespace Connectors

/-- `int num = t / conts_.size()`. -/
def quot (size : Nat) (t : Int) : Int := toInt ((sizeT t / size : Nat) : Int)

/-- `int mod = t % conts_.size()`. -/
def rem (size : Nat) (t : Int) : Int := toInt ((sizeT t % size : Nat) : Int)

/-- `conts_[0]->add`. -/
def addFirst (conts : List Connector) (h : Host) (t : Int) : Option (List Connector) :=
  match conts with
  | [] => none
  | cont :: conts => do
    let cont ← cont.addInt h t
    return cont :: conts

/-- `tcp_client::add`, and `add_unix` with port 0 and the family `local`. -/
def add (conts : List Connector) (h : Host) (t : Int) : Option (List Connector) :=
  if conts.length = 1 then addFirst conts h t
  else do
    let num := quot conts.length t
    let mod := rem conts.length t
    let conts ← conts.mapM fun cont => cont.addInt h num
    addFirst conts h mod

/-- Several calls. -/
def addEach (conts : List Connector) : List (Host × Int) → Option (List Connector)
  | [] => some conts
  | (h, t) :: calls => do
    let conts ← add conts h t
    addEach conts calls

/-- `cont_num` connectors that have just been made. -/
def connectors (size : Nat) : List Connector := List.replicate size ⟨[], [], 0, []⟩

/-- What all connectors have for a host. -/
def pending (conts : List Connector) (h : Host) : Int :=
  (conts.map fun c => Tally.total c.hosts h).sum

/-- Between 0 and `t`. -/
def Between (t share : Int) : Prop := (0 ≤ share ∧ share ≤ t) ∨ (t ≤ share ∧ share ≤ 0)

/-- One call: each connector gets a part of `t`, and together they get `t`. -/
structure Fair (h : Host) (t : Int) (conts conts' : List Connector) : Prop where
  shares : List.Forall₂ (fun c c' => Between t (Tally.total c'.hosts h - Tally.total c.hosts h))
    conts conts'
  sum : pending conts' h = pending conts h + t
  others : ∀ h', h' ≠ h → pending conts' h' = pending conts h'

/-- Each of several calls. -/
def Shared (conts : List Connector) : List (Host × Int) → Prop
  | [] => True
  | (h, t) :: calls => ∀ conts', add conts h t = some conts' →
    Fair h t conts conts' ∧ Shared conts' calls

/-- A count that is not negative, a single connector; or a number of connectors that divides
`2 ^ 32`, if the rest of the division makes up for the first share. -/
def Right (size : Nat) (t : Int) : Prop :=
  size = 1 ∨ 0 ≤ t ∨ (size ∣ 2 ^ 32 ∧ t / size + t % size ≤ 0)

instance (size : Nat) (t : Int) : Decidable (Right size t) :=
  inferInstanceAs (Decidable (_ ∨ _))

variable {conts conts' : List Connector} {h : Host} {t : Int} {size : Nat}

/-! ## The division

A count becomes a `size_t`, which for a negative one adds 2^64. The division then does not commute
with the way back to `int`, unless the number of connectors divides the count and 2^64 in the right
way; `Right` is the exact condition. -/

theorem sizeT_of_neg (hneg : t < 0) (ht : IsInt t) : (sizeT t : Int) = t + 2 ^ 64 := by
  obtain ⟨hlow, -⟩ := ht
  simp only [sizeT]
  omega

/-- `int` does not see multiples of 2^32. -/
theorem toInt_add_mul (x b : Int) : toInt (x + 2 ^ 32 * b) = toInt x := by
  have hcast : ((2 ^ 32 : Nat) : Int) = 2 ^ 32 := by norm_num
  rw [toInt, toInt, ← hcast]
  exact Int.add_mul_bmod_self_left x (2 ^ 32) b

/-- An `int` differs by one from the number it comes from. -/
theorem exists_toInt (x : Int) : ∃ a, toInt x = x - 2 ^ 32 * a := by
  obtain ⟨a, ha⟩ := Int.dvd_self_sub_bmod (x := x) (m := 2 ^ 32)
  refine ⟨a, ?_⟩
  have hcast : ((2 ^ 32 : Nat) : Int) = 2 ^ 32 := by norm_num
  rw [hcast] at ha
  rw [toInt, ← ha]
  omega

/-- The share is between zero and the count. -/
theorem between_quot (t : Int) (hsize : 0 < size) : Between t (t / size) := by
  have hpos : (0 : Int) < size := Int.natCast_pos.mpr hsize
  by_cases hneg : t < 0
  · have hle : t ≤ t / size := by
      rw [Int.le_ediv_iff_mul_le hpos]
      nlinarith
    exact .inr ⟨hle, (Int.ediv_neg_of_neg_of_pos hneg hpos).le⟩
  · have hnonneg : 0 ≤ t / size := Int.ediv_nonneg (by omega) hpos.le
    exact .inl ⟨hnonneg, Int.ediv_le_self _ (by omega)⟩

theorem Between.isInt {share : Int} (h : Between t share) (ht : IsInt t) : IsInt share := by
  obtain ⟨hlow, hhigh⟩ := ht
  simp only [INT_MAX] at hhigh
  unfold IsInt INT_MAX
  rcases h with ⟨h0, hle⟩ | ⟨hle, h0⟩
  · omega
  · omega

theorem isInt_ediv (ht : IsInt t) (hsize : 0 < size) : IsInt (t / size) :=
  (between_quot t hsize).isInt ht

/-- The rest of the division is not converted. -/
theorem rem_eq (hsize : 0 < size) (hmax : (size : Int) ≤ INT_MAX) :
    rem size t = (sizeT t : Int) % size := by
  have hlt : sizeT t % size < size := Nat.mod_lt _ hsize
  have hbound : IsInt ((sizeT t % size : Nat) : Int) := ⟨by omega, by omega⟩
  rw [rem, toInt_of_isInt hbound, Int.natCast_mod]

/-- Where the conversions do no harm. -/
theorem quot_rem (hsize : 0 < size) (hmax : (size : Int) ≤ INT_MAX) (ht : IsInt t)
    (hgood : 0 ≤ t ∨ size ∣ 2 ^ 32) : quot size t = t / size ∧ rem size t = t % size := by
  rw [rem_eq hsize hmax, quot]
  by_cases hneg : t < 0
  · obtain ⟨b, hb⟩ := hgood.resolve_left (by omega)
    -- what the conversion has added is a multiple of `2 ^ 32`, also after the division
    have hadd : (sizeT t : Int) = t + 2 ^ 32 * b * size := by
      have hb' : (size : Int) * b = 2 ^ 32 := by exact_mod_cast hb.symm
      rw [sizeT_of_neg hneg ht]
      calc t + 2 ^ 64 = t + 2 ^ 32 * 2 ^ 32 := by norm_num
        _ = t + 2 ^ 32 * (size * b) := by rw [hb']
        _ = t + 2 ^ 32 * b * size := by ring
    have hne : (size : Int) ≠ 0 := by omega
    constructor
    · rw [Int.natCast_div, hadd, Int.add_mul_ediv_right _ _ hne, toInt_add_mul]
      exact toInt_of_isInt (isInt_ediv ht hsize)
    · rw [hadd, Int.add_mul_emod_self_right]
  · have hsame : (sizeT t : Int) = t := by
      obtain ⟨-, hhigh⟩ := ht
      simp only [INT_MAX] at hhigh
      simp only [sizeT]
      omega
    rw [Int.natCast_div, hsame]
    exact ⟨toInt_of_isInt (isInt_ediv ht hsize), rfl⟩

/-- For a negative count the parts add up only then. -/
theorem dvd_of_sum (hsize : 0 < size) (hmax : (size : Int) ≤ INT_MAX) (ht : IsInt t)
    (hneg : t < 0) (hsum : size * quot size t + rem size t = t) : size ∣ 2 ^ 32 := by
  rw [rem_eq hsize hmax, quot, Int.natCast_div] at hsum
  obtain ⟨a, hquot⟩ := exists_toInt ((sizeT t : Int) / size)
  have hdiv := Int.mul_ediv_add_emod (sizeT t : Int) size
  have hcast := sizeT_of_neg hneg ht
  -- the quotient is off by `2 ^ 32 * a`, and what the conversion has added is `2 ^ 64`
  have hoff : (size : Int) * a = 2 ^ 32 := by
    rw [hquot, mul_sub] at hsum
    have : (2 : Int) ^ 32 * (size * a) = 2 ^ 32 * 2 ^ 32 := by
      calc (2 : Int) ^ 32 * (size * a) = size * (2 ^ 32 * a) := by ring
        _ = 2 ^ 64 := by omega
        _ = 2 ^ 32 * 2 ^ 32 := by norm_num
    exact mul_left_cancel₀ (by norm_num) this
  have hdvd : (size : Int) ∣ ((2 ^ 32 : Nat) : Int) := ⟨a, by push_cast; exact hoff.symm⟩
  exact Int.natCast_dvd_natCast.mp hdvd

/-! ## What a call does to the maps

`add` has a result if all the sums are `int`s, and then it is one of `Connector.add` for each
connector. -/

theorem addInt_eq_some {c c' : Connector} (hadd : c.addInt h t = some c') : c' = c.add h t := by
  simp only [Connector.addInt] at hadd
  split at hadd
  · cases hadd
  · exact (Option.some.inj hadd).symm

theorem total_hosts_add (c : Connector) (h : Host) (t : Int) (h' : Host) :
    Tally.total (c.add h t).hosts h' = Tally.total c.hosts h' + if h = h' then t else 0 := by
  by_cases ht : t = 0
  · simp [Connector.add, ht]
  · simp only [Connector.add, ht, if_false]
    split
    case isTrue => exact Tally.total_add ..
    case isFalse hnew => exact Tally.total_set (Bool.eq_false_iff.mpr hnew) ..

/-- If a call has a result for each connector, `g` gives it. -/
theorem mapM_addInt {g : Connector → Connector}
    (hg : ∀ c ∈ conts, ∀ c', c.addInt h t = some c' → c' = g c)
    (hadd : conts.mapM (fun cont => cont.addInt h t) = some conts') : conts' = conts.map g := by
  induction conts generalizing conts' with
  | nil =>
      obtain rfl := Option.some.inj hadd
      rfl
  | cons c conts ih =>
      obtain ⟨hone, hrest⟩ := List.forall_mem_cons.mp hg
      simp only [List.mapM_cons, Option.bind_eq_bind, Option.bind_eq_some_iff, Option.pure_def,
        Option.some.injEq] at hadd
      obtain ⟨c', hc, rest, hadd, rfl⟩ := hadd
      rw [hone c' hc, ih hrest hadd]
      rfl

/-- The first connector gets the rest of the division. -/
theorem addFirst_eq_some (hadd : addFirst conts h t = some conts') :
    ∃ c c' rest, conts = c :: rest ∧ c.addInt h t = some c' ∧ conts' = c' :: rest := by
  match conts, hadd with
  | c :: rest, hadd =>
      simp only [addFirst, Option.bind_eq_bind, Option.bind_eq_some_iff, Option.pure_def,
        Option.some.injEq] at hadd
      obtain ⟨c', hc, rfl⟩ := hadd
      exact ⟨c, c', rest, rfl, hc, rfl⟩

/-- One connector gets all; of several the first gets the rest of the division too. What `g` is to
give is asked of each share. -/
theorem add_cases_of (g : Connector → Int → Connector) (hadd : add conts h t = some conts')
    (hone : ∀ c ∈ conts, ∀ c', c.addInt h t = some c' → c' = g c t)
    (hquot : ∀ c ∈ conts, ∀ c', c.addInt h (quot conts.length t) = some c' →
      c' = g c (quot conts.length t))
    (hrem : ∀ c ∈ conts, ∀ c₁ c', c.addInt h (quot conts.length t) = some c₁ →
      c₁.addInt h (rem conts.length t) = some c' → c' = g c₁ (rem conts.length t)) :
    (∃ c, conts = [c] ∧ conts' = [g c t]) ∨
      ∃ c rest, conts = c :: rest ∧ rest ≠ [] ∧
        conts' = g (g c (quot conts.length t)) (rem conts.length t) ::
          rest.map fun cont => g cont (quot conts.length t) := by
  simp only [add] at hadd
  split at hadd
  case isTrue hlength =>
    obtain ⟨c, c', rest, rfl, hc, rfl⟩ := addFirst_eq_some hadd
    obtain rfl : rest = [] := List.length_eq_zero_iff.mp (by simpa using hlength)
    exact .inl ⟨c, rfl, by rw [hone c List.mem_cons_self c' hc]⟩
  case isFalse hmany =>
    simp only [Option.bind_eq_bind, Option.bind_eq_some_iff] at hadd
    obtain ⟨all, hall, hfirst⟩ := hadd
    cases conts with
    | nil =>
        obtain rfl := Option.some.inj hall
        cases hfirst
    | cons c rest =>
        simp only [List.mapM_cons, Option.bind_eq_bind, Option.bind_eq_some_iff, Option.pure_def,
          Option.some.injEq] at hall
        obtain ⟨c₁, hc₁, rest', hrest', rfl⟩ := hall
        obtain ⟨_, c', _, hcons, hc', rfl⟩ := addFirst_eq_some hfirst
        obtain ⟨rfl, rfl⟩ := List.cons.inj hcons
        refine .inr ⟨c, rest, rfl, ?_, ?_⟩
        · rintro rfl
          exact hmany rfl
        · rw [hrem c List.mem_cons_self c₁ c' hc₁ hc', hquot c List.mem_cons_self c₁ hc₁,
            mapM_addInt (fun d hd => hquot d (List.mem_cons_of_mem c hd)) hrest']

/-- The two cases of `tcp_client::add`. -/
theorem add_cases (hadd : add conts h t = some conts') :
    (∃ c, conts = [c] ∧ conts' = [c.add h t]) ∨
      ∃ c rest, conts = c :: rest ∧ rest ≠ [] ∧
        conts' = (c.add h (quot conts.length t)).add h (rem conts.length t) ::
          rest.map fun cont => cont.add h (quot conts.length t) :=
  add_cases_of (fun c t => c.add h t) hadd (fun _ _ _ hc => addInt_eq_some hc)
    (fun _ _ _ hc => addInt_eq_some hc) fun _ _ _ _ _ hc => addInt_eq_some hc

theorem length_add (hadd : add conts h t = some conts') : conts'.length = conts.length := by
  rcases add_cases hadd with ⟨c, rfl, rfl⟩ | ⟨c, rest, rfl, -, rfl⟩
  · rfl
  · simp

theorem pending_cons (c : Connector) (conts : List Connector) (h : Host) :
    pending (c :: conts) h = Tally.total c.hosts h + pending conts h := by
  simp [pending]

theorem pending_map_add (conts : List Connector) (h : Host) (t : Int) (h' : Host) :
    pending (conts.map fun cont => cont.add h t) h' =
      pending conts h' + if h = h' then conts.length * t else 0 := by
  induction conts with
  | nil => simp [pending]
  | cons c conts ih =>
      rw [List.map_cons, pending_cons, pending_cons, total_hosts_add, ih]
      split
      · push_cast [List.length_cons]
        ring
      · omega

/-! ## One call

A call is fair if the parts add up and each of them is between zero and the count. -/

/-- The parts add up, and each is between 0 and the count. -/
theorem fair_iff_shares {c : Connector} {rest : List Connector} (num mod : Int) :
    Fair h t (c :: rest) ((c.add h num).add h mod :: rest.map fun cont => cont.add h num) ↔
      Between t (num + mod) ∧ (rest ≠ [] → Between t num) ∧
        (rest.length + 1) * num + mod = t := by
  -- the first connector gets two shares, one of them the remainder
  have hfirst : Tally.total ((c.add h num).add h mod).hosts h - Tally.total c.hosts h =
      num + mod := by
    simp only [total_hosts_add, if_true]
    omega
  have hrest : List.Forall₂
      (fun c c' => Between t (Tally.total c'.hosts h - Tally.total c.hosts h)) rest
      (rest.map fun cont => cont.add h num) ↔ (rest ≠ [] → Between t num) := by
    rw [List.forall₂_map_right_iff, List.forall₂_same]
    -- the others get one each
    have hshare : ∀ c' : Connector,
        Tally.total (c'.add h num).hosts h - Tally.total c'.hosts h = num := by
      intro c'
      simp only [total_hosts_add, if_true]
      omega
    simp only [hshare]
    constructor
    · intro hall hne
      obtain ⟨c', hc'⟩ := List.exists_mem_of_ne_nil _ hne
      exact hall c' hc'
    · intro hbetween c' hc'
      exact hbetween (List.ne_nil_of_mem hc')
  have hsum : pending ((c.add h num).add h mod :: rest.map fun cont => cont.add h num) h =
      pending (c :: rest) h + t ↔ (rest.length + 1) * num + mod = t := by
    rw [pending_cons, pending_cons, pending_map_add]
    simp only [total_hosts_add, if_true, add_mul]
    omega
  constructor
  · intro hfair
    obtain ⟨hb, hbs⟩ := List.forall₂_cons.mp hfair.shares
    rw [hfirst] at hb
    exact ⟨hb, hrest.mp hbs, hsum.mp hfair.sum⟩
  · rintro ⟨hb, hbs, hs⟩
    refine ⟨List.forall₂_cons.mpr ⟨?_, hrest.mpr hbs⟩, hsum.mpr hs, ?_⟩
    · rw [hfirst]
      exact hb
    · intro h' hne
      rw [pending_cons, pending_cons, pending_map_add]
      simp [total_hosts_add, hne.symm]

/-- The shares of the division, where it is one of integers. -/
theorem between_ediv (t : Int) (hsize : 0 < size)
    (hgood : 0 ≤ t ∨ t / size + t % size ≤ 0) :
    Between t (t / size) ∧ Between t (t / size + t % size) := by
  have hpos : (0 : Int) < size := Int.natCast_pos.mpr hsize
  have hmod : 0 ≤ t % size := Int.emod_nonneg _ hpos.ne'
  have hsum : size * (t / size) + t % size = t := Int.mul_ediv_add_emod t size
  refine ⟨between_quot t hsize, ?_⟩
  by_cases hneg : t < 0
  · have hrest := hgood.resolve_left (by omega)
    rcases between_quot t hsize with ⟨h0, hle⟩ | ⟨hle, h0⟩
    · omega
    · exact .inr ⟨by omega, hrest⟩
  · have hnonneg : 0 ≤ t / size := Int.ediv_nonneg (by omega) hpos.le
    have hle : t / size ≤ size * (t / size) := le_mul_of_one_le_left hnonneg (by omega)
    exact .inl ⟨by omega, by omega⟩

theorem fair_iff (hmax : (conts.length : Int) ≤ INT_MAX) (ht : IsInt t)
    (hadd : add conts h t = some conts') : Fair h t conts conts' ↔ Right conts.length t := by
  rcases add_cases hadd with ⟨c, rfl, rfl⟩ | ⟨c, rest, rfl, hne, rfl⟩
  -- one connector is given the count itself
  · have hzero : (c.add h t).add h 0 = c.add h t := by simp [Connector.add]
    refine iff_of_true ?_ (.inl rfl)
    have hfair := (@fair_iff_shares h t c [] t 0).mpr
      ⟨?_, fun hnil => absurd rfl hnil, by simp⟩
    · rw [hzero] at hfair
      exact hfair
    · rw [Int.add_zero]
      exact (le_total 0 t).imp (fun h0 => ⟨h0, le_rfl⟩) fun h0 => ⟨le_rfl, h0⟩
  · have hpos : 0 < (c :: rest).length := Nat.succ_pos _
    have hcast : ((c :: rest).length : Int) = rest.length + 1 := by simp
    rw [fair_iff_shares, ← hcast]
    constructor
    · rintro ⟨hfirst, -, hsum⟩
      by_cases hneg : t < 0
      · have hdvd := dvd_of_sum hpos hmax ht hneg hsum
        obtain ⟨hquot, hrem⟩ := quot_rem hpos hmax ht (.inr hdvd)
        rw [hquot, hrem] at hfirst
        refine .inr (.inr ⟨hdvd, ?_⟩)
        rcases hfirst with ⟨h0, hle⟩ | ⟨-, hle⟩
        · omega
        · exact hle
      · exact .inr (.inl (by omega))
    · intro hright
      have hgood : 0 ≤ t ∨ ((c :: rest).length ∣ 2 ^ 32 ∧
          t / (c :: rest).length + t % (c :: rest).length ≤ 0) := by
        refine hright.resolve_left fun hone => hne ?_
        exact List.length_eq_zero_iff.mp (by simpa using hone)
      obtain ⟨hquot, hrem⟩ := quot_rem hpos hmax ht (hgood.imp id And.left)
      obtain ⟨hothers, hfirst⟩ := between_ediv t hpos (hgood.imp id And.right)
      rw [hquot, hrem]
      exact ⟨hfirst, fun _ => hothers, Int.mul_ediv_add_emod t _⟩

/-! ## Several calls

Sums that are `int`s do not depend on the order of the calls, so each call can be looked at on its
own. -/

/-- A sequence is shared out right if and only if every call is. -/
theorem shared_iff_right {calls : List (Host × Int)} (hmax : (conts.length : Int) ≤ INT_MAX)
    (hints : ∀ call ∈ calls, IsInt call.2) (hrun : addEach conts calls = some conts') :
    Shared conts calls ↔ ∀ call ∈ calls, Right conts.length call.2 := by
  induction calls generalizing conts with
  | nil => exact iff_of_true trivial (by simp)
  | cons call calls ih =>
      obtain ⟨h, t⟩ := call
      obtain ⟨ht, hints⟩ := List.forall_mem_cons.mp hints
      simp only [addEach, Option.bind_eq_bind, Option.bind_eq_some_iff] at hrun
      obtain ⟨next, hadd, hrest⟩ := hrun
      have hlength := length_add hadd
      have hih := ih (by rw [hlength]; exact hmax) hints hrest
      rw [hlength] at hih
      simp only [Shared, hadd, Option.some.injEq, forall_eq', List.forall_mem_cons, hih]
      exact and_congr_left' (fair_iff hmax ht hadd)

/-- What has been added adds up. -/
theorem Shared.pending {calls : List (Host × Int)} (hshared : Shared conts calls)
    (hrun : addEach conts calls = some conts') (h : Host) :
    Connectors.pending conts' h = Connectors.pending conts h + Tally.total calls h := by
  induction calls generalizing conts with
  | nil =>
      obtain rfl := Option.some.inj hrun
      simp
  | cons call calls ih =>
      obtain ⟨h', t⟩ := call
      simp only [addEach, Option.bind_eq_bind, Option.bind_eq_some_iff] at hrun
      obtain ⟨next, hadd, hrest⟩ := hrun
      obtain ⟨hfair, hmore⟩ := hshared next hadd
      rw [ih hmore hrest, Tally.total_cons]
      by_cases hh : h' = h
      · subst hh
        rw [hfair.sum, if_pos rfl]
        omega
      · rw [hfair.others h (Ne.symm hh), if_neg hh]
        omega

theorem pending_connectors (size : Nat) (h : Host) : pending (connectors size) h = 0 := by
  simp [pending, connectors]

/-- **Which counts are shared out right.** With connectors that have just been made, in a sequence of
calls in which no sum overflows: each call gives every connector a part of its count, and what is
pending is always the sum of what has been added, if and only if each count is right for the number
of connectors. -/
theorem shared_iff {calls : List (Host × Int)} (hmax : (size : Int) ≤ INT_MAX)
    (hints : ∀ call ∈ calls, IsInt call.2)
    (hrun : addEach (connectors size) calls = some conts') :
    (Shared (connectors size) calls ∧ ∀ h, pending conts' h = Tally.total calls h) ↔
      ∀ call ∈ calls, Right size call.2 := by
  have hlength : (connectors size).length = size := by simp [connectors]
  have hiff := shared_iff_right (by rw [hlength]; exact hmax) hints hrun
  rw [hlength] at hiff
  rw [← hiff]
  refine ⟨And.left, fun hshared => ⟨hshared, fun h => ?_⟩⟩
  rw [hshared.pending hrun, pending_connectors, Int.zero_add]

/-- Two hosts, three connectors. -/
def threeCalls : List (Host × Int) :=
  [(TcpClient.server, 7), (("/tmp/server", 0, .local), 2), (TcpClient.server, 1)]

theorem shared_iff_threeCalls :
    ∃ conts', addEach (connectors 3) threeCalls = some conts' ∧
      Shared (connectors 3) threeCalls ∧ ∀ h, pending conts' h = Tally.total threeCalls h := by
  have hsome : (addEach (connectors 3) threeCalls).isSome = true := by decide +kernel
  obtain ⟨conts', hrun⟩ := Option.isSome_iff_exists.mp hsome
  exact ⟨conts', hrun, (shared_iff (by decide) (by decide) hrun).mpr (by decide)⟩

/-- Each of three connectors is to connect 1431655765 times. -/
theorem negative_count :
    ∃ conts', addEach (connectors 3) [(TcpClient.server, -1)] = some conts' ∧
      pending conts' TcpClient.server = 4294967295 ∧
        ¬ Shared (connectors 3) [(TcpClient.server, -1)] := by
  have hsome : ((addEach (connectors 3) [(TcpClient.server, -1)]).map fun conts =>
      pending conts TcpClient.server) = some 4294967295 := by decide +kernel
  obtain ⟨conts', hrun, hpending⟩ := Option.map_eq_some_iff.mp hsome
  refine ⟨conts', hrun, hpending, fun hshared => ?_⟩
  have hsum := hshared.pending hrun TcpClient.server
  rw [hpending, pending_connectors] at hsum
  exact absurd hsum (by decide)

/-! ## Counts that are not negative

Then the conversions do nothing, and `add` is the one of `Accounts`. That it adds twice to the first
connector's entry is one sum there. -/

/-- The map has one count for the host. -/
def OneCount (c : Connector) (h : Host) : Prop := c.hosts.get h = Tally.total c.hosts h

theorem OneCount.addWrapped {c : Connector} (hone : OneCount c h) (ht : IsInt t) :
    OneCount (c.addWrapped h t) h := by
  by_cases hne : t = 0
  · rwa [hne, Connector.addWrapped_zero]
  · rw [Connector.addWrapped_eq ht hne]
    show (c.hosts.addWith toInt h t).get h = Tally.total (c.hosts.addWith toInt h t) h
    rw [Tally.get_addWith, Tally.total_addWith, if_pos rfl, ← hone]
    omega

/-- A sum that is an `int` does not wrap around. -/
theorem addInt_eq_addWrapped {c c' : Connector} (hone : OneCount c h)
    (hadd : c.addInt h t = some c') : c' = c.addWrapped h t := by
  rw [addInt_eq_some hadd]
  by_cases hne : t = 0
  · rw [hne, Connector.addWrapped_zero]
    exact if_pos rfl
  by_cases hhas : c.hosts.has h = true
  · have hsum : IsInt (c.hosts.get h + t) := by
      by_contra hnot
      rw [hone] at hnot
      simp [Connector.addInt, hne, hhas, hnot] at hadd
    simp only [Connector.add, Connector.addWrapped, if_neg hne, if_pos hhas,
      Tally.addWith_eq_add (toInt_of_isInt hsum)]
  · simp only [Connector.add, Connector.addWrapped, if_neg hne, if_neg hhas]

/-- The client without the conversions. -/
theorem add_eq_tcpClient {n m : Nat} (c : TcpClient n m) (hmax : ((n + 1 : Nat) : Int) ≤ INT_MAX)
    (h0 : 0 ≤ t) (ht : IsInt t) (hone : ∀ j, OneCount (c.conts j) h)
    (hadd : add (List.ofFn c.conts) h t = some conts') :
    conts' = List.ofFn (c.add h t).conts := by
  have hlength : (List.ofFn c.conts).length = n + 1 := List.length_ofFn
  obtain ⟨hquot, hrem⟩ := quot_rem (Nat.succ_pos n) hmax ht (.inl h0)
  have hnum : IsInt (quot (List.ofFn c.conts).length t) := isInt_toInt _
  have hmem : ∀ d ∈ List.ofFn c.conts, OneCount d h := by
    intro d hd
    obtain ⟨j, rfl⟩ := List.mem_ofFn.mp hd
    exact hone j
  have hcases := add_cases_of (fun c t => c.addWrapped h t) hadd
    (fun d hd _ h₁ => addInt_eq_addWrapped (hmem d hd) h₁)
    (fun d hd _ h₁ => addInt_eq_addWrapped (hmem d hd) h₁) fun d hd d₁ d' h₁ h₂ => by
      have hone₁ : OneCount d₁ h := by
        rw [addInt_eq_addWrapped (hmem d hd) h₁]
        exact (hmem d hd).addWrapped hnum
      exact addInt_eq_addWrapped hone₁ h₂
  rcases hcases with ⟨cont, hsingle, rfl⟩ | ⟨cont, rest, hcons, hne, rfl⟩
  · rw [hsingle] at hlength
    obtain rfl : n = 0 := by simpa using hlength.symm
    rw [List.ofFn_succ] at hsingle ⊢
    obtain ⟨rfl, -⟩ := List.cons.inj hsingle
    simp [TcpClient.add]
  · have hn : n ≠ 0 := by
      rintro rfl
      rw [hcons] at hlength
      exact hne (List.length_eq_zero_iff.mp (by simpa using hlength))
    rw [hlength, hquot, hrem]
    rw [List.ofFn_succ] at hcons ⊢
    obtain ⟨rfl, rfl⟩ := List.cons.inj hcons
    simp [TcpClient.add, hn, List.map_ofFn, Function.comp_def]

end Connectors

end Cppev
