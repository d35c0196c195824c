import PdfFilters.Deflate.Match

/-!
# Matches stand where they say

A search may be careless about which match it takes, because a match is only what was compared byte
by byte. `Match.Stands` says that the bytes at a place stand so far back as well, that they are
inside the data, and that the copy is one that the format can write. Both ways to look for a match
find only such (`stands_of_find?` here, and the hasty one where data are cut).

The search walks back along the links, so the links have to lead back (`Searched.LeadsBack`).
-/

namespace PdfFilters

/-- The bytes from two places on agree as far as they were compared. -/
theorem getD_of_lt_agreement {data : Array UInt8} {first second limit index : Nat}
    (inside : index < agreement data first second limit) :
    data.getD (first + index) 0 = data.getD (second + index) 0 := by
  induction limit generalizing first second index with
  | zero => cases inside
  | succ limit ih =>
    rw [agreement] at inside
    split at inside
    next same =>
      cases index with
      | zero => exact same
      | succ index =>
        have next := ih (Nat.lt_of_succ_lt_succ inside)
        rwa [Nat.add_right_comm, Nat.add_assoc, Nat.add_right_comm second, Nat.add_assoc second]
          at next
    next => cases inside

theorem agreement_le (data : Array UInt8) (first second limit : Nat) :
    agreement data first second limit ≤ limit := by
  induction limit generalizing first second with
  | zero => exact Nat.le_refl 0
  | succ limit ih =>
    rw [agreement]
    split
    · exact Nat.succ_le_succ (ih _ _)
    · exact Nat.zero_le _

/-- A match that a token can write, with bytes that agree. -/
structure Match.Stands (data : Array UInt8) (place : Nat) (found : Match) : Prop where
  least : Token.minLength ≤ found.length
  most : found.length ≤ Token.maxLength
  inside : place + found.length ≤ data.size
  back : 0 < found.distance
  near : found.distance ≤ Token.maxDistance
  after_start : found.distance ≤ place
  same : ∀ index < found.length,
    data.getD (place - found.distance + index) 0 = data.getD (place + index) 0

/-- What was compared makes a match, if it is long enough and not too far away. -/
theorem Match.stands_of_agreement {data : Array UInt8} {place source limit : Nat}
    (short : limit ≤ Token.maxLength) (inside : place + limit ≤ data.size) (before : source < place)
    (near : place - source ≤ Token.maxDistance)
    (long : Token.minLength ≤ agreement data source place limit)
    (some : 0 < agreement data source place limit) :
    Match.Stands data place ⟨agreement data source place limit, place - source, some⟩ := by
  have most := agreement_le data source place limit
  refine ⟨long, Nat.le_trans most short, ?_, Nat.sub_pos_of_lt before, near, Nat.sub_le _ _, ?_⟩
  · show place + agreement data source place limit ≤ data.size
    omega
  · intro index h
    have same := getD_of_lt_agreement h
    rwa [show place - (place - source) = source by omega]

namespace Searched

/-- Every link leads to an earlier place, or nowhere. -/
def LeadsBack (links : Array Nat) : Prop :=
  ∀ place, links.getD place 0 ≠ 0 → links.getD place 0 < place

theorem longest_le (searched : Searched) (place : Nat) :
    searched.longest place ≤ Token.maxLength
      ∧ searched.longest place ≤ searched.data.size - place := by
  rw [longest]
  exact ⟨Nat.min_le_left _ _, Nat.min_le_right _ _⟩

/-- Walking back finds only matches that stand. -/
theorem stands_of_follow {searched : Searched} (back : LeadsBack searched.links) {place reach : Nat}
    (inside : place ≤ searched.data.size) (near : reach ≤ Token.maxDistance)
    (rounds steps source floor : Nat) (best : Option Match) (least : Token.minLength ≤ floor + 1)
    (from_place : source ≤ place)
    (known : ∀ found, best = some found → found.Stands searched.data place) :
    ∀ found, searched.follow place reach rounds steps source floor best = some found →
      found.Stands searched.data place := by
  -- Whatever the walk meets is a place before this one, and what was compared there stands.
  have earlier {previous : Nat} (further : ¬ (searched.links.getD previous 0 = 0
      ∨ reach < place - searched.links.getD previous 0)) (here : previous ≤ place) :
      searched.links.getD previous 0 ≤ place := by
    have := back previous (not_or.mp further).1
    omega
  have stands {previous floor : Nat} (further : ¬ (searched.links.getD previous 0 = 0
      ∨ reach < place - searched.links.getD previous 0))
      (longer : floor < agreement searched.data (searched.links.getD previous 0) place
        (searched.longest place)) (here : previous ≤ place)
      (least : Token.minLength ≤ floor + 1) :
      Match.Stands searched.data place ⟨_, place - searched.links.getD previous 0,
        Nat.zero_lt_of_lt longer⟩ := by
    have before := back previous (not_or.mp further).1
    have short := searched.longest_le place
    exact Match.stands_of_agreement short.1 (by omega) (by omega)
      (Nat.le_trans (Nat.not_lt.mp (not_or.mp further).2) near) (Nat.le_trans least longer) _
  fun_induction searched.follow place reach rounds steps source floor best with
  | case1 => exact known
  | case2 rounds source floor best ih => exact ih least from_place known
  | case3 => exact known
  | case4 rounds steps previous floor _ source further _ length longer =>
    intro found h
    obtain rfl := Option.some.inj h
    exact stands further longer from_place least
  | case5 rounds steps previous floor _ source further _ length longer _ _ ih =>
    refine ih (Nat.le_succ_of_le (Nat.le_trans least longer)) (earlier further from_place) ?_
    intro found h
    obtain rfl := Option.some.inj h
    exact stands further longer from_place least
  | case6 rounds steps previous floor _ source further _ length _ ih =>
    exact ih least (earlier further from_place) known
  | case7 rounds steps previous floor _ source further _ ih =>
    exact ih least (earlier further from_place) known

theorem stands_of_find? {searched : Searched} (back : LeadsBack searched.links) {place : Nat}
    (inside : place ≤ searched.data.size) {rounds floor : Nat}
    (least : Token.minLength ≤ floor + 1) {found : Match}
    (h : searched.find? rounds place floor = some found) : found.Stands searched.data place := by
  rw [find?] at h
  split at h
  · cases h
  · obtain ⟨h, -⟩ := Option.filter_eq_some_iff.mp h
    refine stands_of_follow back inside ?_ rounds 0 place floor none least (Nat.le_refl _) ?_ found h
    · omega
    · nofun

/-- The places that were seen last are before the one that is linked next. -/
theorem leadsBack_linksFrom {data : Array UInt8} {place : Nat} {latest links : Array Nat}
    (seen : ∀ bucket, latest.getD bucket 0 ≠ 0 → latest.getD bucket 0 < place)
    (size : links.size = place) (back : LeadsBack links) :
    LeadsBack (linksFrom data place latest links) := by
  fun_induction linksFrom data place latest links with
  | case1 place latest links _ bucket link ih =>
    refine ih ?_ ?_ ?_
    -- The place itself is the latest one of its bucket from now on.
    · intro other some
      rw [Array.getD_eq_getD_getElem?, Array.getElem?_setIfInBounds] at some ⊢
      have old := seen other
      rw [Array.getD_eq_getD_getElem?] at old
      split at some
      next same =>
        rw [if_pos same]
        split
        · exact Nat.lt_succ_self place
        · exact Nat.succ_pos place
      next apart =>
        rw [if_neg apart]
        exact Nat.lt_succ_of_lt (old some)
    · rw [Array.size_push, size]
    -- Its link is what was the latest one before.
    · intro other some
      rw [Array.getD_eq_getD_getElem?, Array.getElem?_push] at some ⊢
      have old := back other
      rw [Array.getD_eq_getD_getElem?] at old
      split at some
      next last =>
        rw [if_pos last, last, size]
        exact seen bucket some
      next apart =>
        rw [if_neg apart]
        exact old some
  | case2 => exact back

theorem leadsBack_ofData (data : Array UInt8) : LeadsBack (ofData data).links := by
  refine leadsBack_linksFrom ?_ rfl ?_
  · intro bucket some
    rw [Array.getD_eq_getD_getElem?, Array.getElem?_replicate] at some
    split at some <;> exact absurd rfl some
  · intro place some
    exact absurd rfl some

end Searched

end PdfFilters
