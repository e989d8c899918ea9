import Cppev.Lib.Words
import Cppev.Utils.Strings

/-!
# Stripping a string

`do_strip` takes runs of `chars` off the ends of a string. On the right side, the loop that compares
ends at `r - chars.size() - 1`. With exactly `chars.size()` bytes left from the start of the string
that is `SIZE_MAX`: nothing is compared, and the bytes are taken off.

* `strips_iff`: the three functions are right if and only if this does not happen.
-/

namespace Cppev

variable {str c : List Byte} {p r : Nat}

/-! ## The left side -/

theorem stripLeft_spec (hc : c ≠ []) (hp : p ≤ str.length) :
    p ≤ stripLeft str c str.length p ∧ stripLeft str c str.length p ≤ str.length ∧
      LStrips c (str.drop p) (str.drop (stripLeft str c str.length p)) := by
  fun_induction stripLeft str c str.length p with
  | case1 p h hm ih =>
      have hlen := List.length_pos_of_ne_nil hc
      obtain ⟨hle, hle', hrest⟩ := ih (by omega)
      obtain ⟨t, ht⟩ := matchAt_iff.mp hm
      have htail : t = str.drop (p + c.length) := by
        rw [← List.drop_drop, ← ht, List.drop_left]
      refine ⟨by omega, hle', ?_⟩
      rw [← ht, htail]
      exact hrest.append
  | case2 p h hm => exact ⟨Nat.le_refl p, hp, lstrips_self fun hpre => hm (matchAt_iff.mpr hpre)⟩
  | case3 p h =>
      refine ⟨Nat.le_refl p, hp, lstrips_self fun hpre => h ⟨hc, ?_⟩⟩
      simpa using hpre.length_le

/-! ## The right side -/

/-- The part of the string that the right side still looks at. -/
def between (str : List Byte) (p r : Nat) : List Byte := (str.take r).drop p

theorem length_between (hr : r ≤ str.length) : (between str p r).length = r - p := by
  simp [between, Nat.min_eq_left hr]

/-- One `c` less on the right. -/
theorem between_sub (hc : c ≠ []) (hr : r ≤ str.length) (hlen : c.length ≤ r - p)
    (hsuf : c <:+ str.take r) : between str p r = between str p (r - c.length) ++ c := by
  have hpos := List.length_pos_of_ne_nil hc
  obtain ⟨t, ht⟩ := hsuf
  have htl : t.length = r - c.length := by
    have := congrArg List.length ht
    simp only [List.length_append, List.length_take_of_le hr] at this
    omega
  have htake : str.take (r - c.length) = t := by
    have := congrArg (List.take t.length) ht
    rwa [List.take_left, List.take_take, Nat.min_eq_left (by omega), htl, eq_comm] at this
  rw [between, between, htake, ← ht, List.drop_append_of_le_length (by omega)]

theorem suffix_between (hc : c ≠ []) (hr : r ≤ str.length) (hlen : c.length ≤ r - p) :
    c <:+ between str p r ↔ c <:+ str.take r := by
  refine ⟨fun h => h.trans (List.drop_suffix _ _), fun h => ?_⟩
  rw [between_sub hc hr hlen h]
  exact List.suffix_append _ _

/-- A comparison that succeeds is right, unless it is left out. -/
theorem suffix_of_matchBack (hc : c ≠ []) (hmax : str.length ≤ maxSize) (hr : r ≤ str.length)
    (hlen : c.length ≤ r - p) {rest : List Byte} (hrest : RStrips c (between str p r) rest)
    (hgood : 0 < p ∨ rest.length ≠ c.length)
    (hm : matchBack str c (sizeT (r - c.length - 1)) (r - 1) (c.length - 1) = true) :
    c <:+ str.take r := by
  have hpos := List.length_pos_of_ne_nil hc
  by_cases hlt : c.length < r
  · exact (matchBack_iff hlt hr hmax).mp hm
  -- `p = 0` and `r = c.length`: nothing has been compared
  · by_contra hno
    have hself : between str p r = rest :=
      (rstrips_self fun h => hno ((suffix_between hc hr hlen).mp h)).unique hrest
    have hall := length_between (p := p) hr
    rw [hself] at hall
    omega

/-- The right side is right unless it starts at the front and leaves as many bytes as `c` has. -/
theorem stripRight_spec {rest : List Byte} (hc : c ≠ []) (hmax : str.length ≤ maxSize)
    (hr : r ≤ str.length) (hrest : RStrips c (between str p r) rest)
    (hgood : 0 < p ∨ rest.length ≠ c.length) :
    between str p (stripRight str c p r) = rest ∧ stripRight str c p r ≤ str.length := by
  have hpos := List.length_pos_of_ne_nil hc
  fun_induction stripRight str c p r with
  | case1 r h hm ih =>
      have hsuf := suffix_of_matchBack hc hmax hr h.2 hrest hgood hm
      rw [between_sub hc hr h.2 hsuf, rstrips_append_iff] at hrest
      exact ih (by omega) hrest
  | case2 r h hm =>
      have hlt : c.length < r := by
        by_contra hlt
        exact hm (matchBack_wrap (by omega) (by omega) _)
      have hno : ¬ c <:+ between str p r := fun hsuf =>
        hm ((matchBack_iff hlt hr hmax).mpr ((suffix_between hc hr h.2).mp hsuf))
      exact ⟨(rstrips_self hno).unique hrest, hr⟩
  | case3 r h =>
      refine ⟨(rstrips_self fun hsuf => h ⟨hc, ?_⟩).unique hrest, hr⟩
      rw [← length_between hr]
      exact hsuf.length_le

/-- Then nothing is left. -/
theorem stripRight_bad {rest : List Byte} (hc : c ≠ []) (hmax : str.length ≤ maxSize)
    (hr : r ≤ str.length) (hrest : RStrips c (between str 0 r) rest)
    (hbad : rest.length = c.length) : stripRight str c 0 r = 0 := by
  have hpos := List.length_pos_of_ne_nil hc
  fun_induction stripRight str c 0 r with
  | case1 r h hm ih =>
      by_cases hlt : c.length < r
      · have hsuf := (matchBack_iff hlt hr hmax).mp hm
        rw [between_sub hc hr h.2 hsuf, rstrips_append_iff] at hrest
        exact ih (by omega) hrest
      -- the last `c.length` bytes, taken off whatever they are
      · rw [show r - c.length = 0 by omega, stripRight, dif_neg (by omega)]
  | case2 r h hm =>
      have hlt : c.length < r := by
        by_contra hlt
        exact hm (matchBack_wrap (by omega) (by omega) _)
      have hno : ¬ c <:+ between str 0 r := fun hsuf =>
        hm ((matchBack_iff hlt hr hmax).mpr ((suffix_between hc hr h.2).mp hsuf))
      have hlen := length_between (p := 0) hr
      rw [(rstrips_self hno).unique hrest] at hlen
      omega
  | case3 r h =>
      obtain ⟨k, hk, -⟩ := hrest
      have hlen := congrArg List.length hk
      rw [length_between hr, List.length_append] at hlen
      exact absurd ⟨hc, by omega⟩ h

/-! ## The three functions -/

variable {s : StdString} {l rest : List Byte}

theorem lstrip_ok (hc : c ≠ []) (h : LStrips c s.1 l) : lstrip s.1 c = .ok l := by
  obtain ⟨-, hle, hl⟩ := stripLeft_spec hc (Nat.zero_le s.1.length)
  rw [List.drop_zero] at hl
  obtain rfl := hl.unique h
  have hnot : ¬ stripLeft s.1 c s.1.length 0 > s.1.length := by omega
  simp [lstrip, doStrip, hc, STRIP_LEFT, STRIP_RIGHT, substr, hnot]

/-- What the right side does from `p` on. -/
theorem between_stripRight (hc : c ≠ []) (h : RStrips c (s.1.drop p) rest) :
    between s.1 p (stripRight s.1 c p s.1.length) =
      if p = 0 ∧ rest.length = c.length then [] else rest := by
  have hall : between s.1 p s.1.length = s.1.drop p := by simp [between]
  split
  case isTrue hbad =>
    obtain ⟨rfl, hbad⟩ := hbad
    rw [stripRight_bad hc s.2 (Nat.le_refl _) (hall.symm ▸ h) hbad]
    rfl
  case isFalse hgood =>
    exact (stripRight_spec hc s.2 (Nat.le_refl _) (hall.symm ▸ h) (by omega)).1

theorem rstrip_ok (hc : c ≠ []) (h : RStrips c s.1 rest) :
    rstrip s.1 c = .ok (if rest.length = c.length then [] else rest) := by
  have hret : rstrip s.1 c = .ok (between s.1 0 (stripRight s.1 c 0 s.1.length)) := by
    simp [rstrip, doStrip, hc, STRIP_LEFT, STRIP_RIGHT, substr, between]
  rw [hret, between_stripRight (p := 0) hc (by simpa using h)]
  simp

theorem strip_ok (hc : c ≠ []) (hl : LStrips c s.1 l) (h : RStrips c l rest) :
    strip s.1 c = .ok (if l = s.1 ∧ rest.length = c.length then [] else rest) := by
  obtain ⟨-, hle, hdrop⟩ := stripLeft_spec hc (Nat.zero_le s.1.length)
  rw [List.drop_zero] at hdrop
  obtain rfl := hdrop.unique hl
  have hnot : ¬ stripLeft s.1 c s.1.length 0 > s.1.length := by omega
  have hret : strip s.1 c = .ok (between s.1 (stripLeft s.1 c s.1.length 0)
      (stripRight s.1 c (stripLeft s.1 c s.1.length 0) s.1.length)) := by
    simp [strip, doStrip, hc, STRIP_LEFT, STRIP_RIGHT, substr, hnot, between, List.drop_take]
  have hself : s.1.drop (stripLeft s.1 c s.1.length 0) = s.1 ↔
      stripLeft s.1 c s.1.length 0 = 0 := by
    refine ⟨fun heq => ?_, fun hz => by rw [hz, List.drop_zero]⟩
    have := congrArg List.length heq
    rw [List.length_drop] at this
    omega
  rw [hret, between_stripRight hc h]
  simp only [hself]

/-! ## The theorem -/

/-- The three functions do what their names say. -/
structure Strips (s c : List Byte) : Prop where
  left : ∃ l, lstrip s c = .ok l ∧ LStrips c s l
  right : ∃ r, rstrip s c = .ok r ∧ RStrips c s r
  both : strip s c = (lstrip s c).bind fun l => rstrip l c

/-- What stands before the longest run of `c` at the end is not as long as `c`; and so for the string
without the longest run of `c` at the front. -/
def NotAsLong (s c : List Byte) : Prop :=
  (∀ r, RStrips c s r → r.length ≠ c.length) ∧
    ∀ l r, LStrips c s l → RStrips c l r → r.length ≠ c.length

/-- **Strips.** -/
theorem strips_iff (s : StdString) (c : List Byte) (hc : c ≠ []) :
    Strips s.1 c ↔ NotAsLong s.1 c := by
  obtain ⟨-, hle, hl⟩ := stripLeft_spec hc (Nat.zero_le s.1.length)
  rw [List.drop_zero] at hl
  generalize hleft : s.1.drop (stripLeft s.1 c s.1.length 0) = l at hl
  have hlmax : l.length ≤ maxSize := by
    rw [← hleft, List.length_drop]
    exact (Nat.sub_le _ _).trans s.2
  obtain ⟨r, hr⟩ := exists_rstrips hc s.1
  obtain ⟨r', hr'⟩ := exists_rstrips hc l
  have hpos := List.length_pos_of_ne_nil hc
  have hlstrip := lstrip_ok hc hl
  have hrstrip := rstrip_ok hc hr
  have hrstrip' : rstrip l c = _ := rstrip_ok (s := ⟨l, hlmax⟩) hc hr'
  have hstrip := strip_ok hc hl hr'
  constructor
  · rintro ⟨-, ⟨t, ht, htr⟩, hboth⟩
    obtain rfl := htr.unique hr
    have hgood : t.length ≠ c.length := by
      intro hbad
      rw [hrstrip, if_pos hbad] at ht
      obtain rfl := Except.ok.inj ht
      simp only [List.length_nil] at hbad
      omega
    refine ⟨fun u hu => hu.unique hr ▸ hgood, fun m u hm hu hbad => ?_⟩
    obtain rfl := hm.unique hl
    obtain rfl := hu.unique hr'
    -- the run on the left is not empty, so `strip` compares where `rstrip` does not
    have hne : m ≠ s.1 := by
      rintro rfl
      exact hgood (hr.unique hu ▸ hbad)
    rw [hlstrip, hstrip, if_neg (fun h => hne h.1)] at hboth
    change _ = rstrip m c at hboth
    rw [hrstrip', if_pos hbad] at hboth
    obtain rfl := Except.ok.inj hboth
    simp only [List.length_nil] at hbad
    omega
  · rintro ⟨hgood, hgood'⟩
    refine ⟨⟨l, hlstrip, hl⟩, ⟨r, ?_, hr⟩, ?_⟩
    · rw [hrstrip, if_neg (hgood r hr)]
    -- on a string without its run on the left, both leave out no comparison
    · rw [hlstrip, hstrip, if_neg fun h => hgood' l r' hl hr' h.2]
      show _ = rstrip l c
      rw [hrstrip', if_neg (hgood' l r' hl hr')]

/-- `"aabba"`, stripped of `"a"`. -/
theorem strips_iff_aabba : Strips [97, 97, 98, 98, 97] [97] ∧ NotAsLong [97, 97, 98, 98, 97] [97] := by
  have hr : RStrips [(97 : Byte)] [97, 97, 98, 98, 97] [97, 97, 98, 98] :=
    rstrips_iff.mpr ⟨1, rfl, by decide⟩
  have hl : LStrips [(97 : Byte)] [97, 97, 98, 98, 97] [98, 98, 97] := lstrips_iff.mpr ⟨2, rfl, by decide⟩
  have hr' : RStrips [(97 : Byte)] [98, 98, 97] [98, 98] := rstrips_iff.mpr ⟨1, rfl, by decide⟩
  have hgood : NotAsLong [97, 97, 98, 98, 97] [97] := by
    refine ⟨fun r h => ?_, fun l r h h' => ?_⟩
    · simp [h.unique hr]
    · obtain rfl := h.unique hl
      simp [h'.unique hr']
  exact ⟨(strips_iff ⟨[97, 97, 98, 98, 97], by decide⟩ [97] (by decide)).mpr hgood, hgood⟩

/-- `rstrip("ab", "xy")` is empty. -/
theorem strips_ab : ¬ ∀ (s : StdString) (c : List Byte), c ≠ [] → Strips s.1 c := by
  intro h
  let ab : StdString := ⟨[97, 98], by decide⟩
  have hself : RStrips [120, 121] ab.1 ab.1 := rstrips_self (by decide)
  obtain ⟨r, hr, hr'⟩ := (h ab [120, 121] (by decide)).right
  rw [rstrip_ok (by decide) hself] at hr
  obtain rfl : [] = r := Except.ok.inj hr
  exact absurd (hr'.unique hself) (by decide)

end Cppev
