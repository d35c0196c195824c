import PdfFilters.Deflate.Cutting
import PdfFilters.Proofs.Deflate.Matching

/-!
# Tokens expand to the data that were cut

`Expands` is the relation between data and what they become when tokens are expanded one after
another, each of which has to be valid where it stands (`Token.IsValid`). Whatever the level, the
tokens that data are cut into expand to the data (`expands_tokens`): the walk over the data keeps
the tokens found so far expanding to the data before its place, and a copy goes on with them
because its bytes agree (`copyBack_extract`).
-/

namespace PdfFilters

/-- A token that the format can write, and whose bytes exist when there are so many before it. -/
inductive Token.IsValid (size : Nat) : Token → Prop
  | byte (value : UInt8) : IsValid size (.byte value)
  | copy {length distance : Nat} (least : minLength ≤ length) (most : length ≤ maxLength)
      (back : 0 < distance) (near : distance ≤ maxDistance) (inside : distance ≤ size) :
      IsValid size (.copy length distance)

/-- Some data become others when tokens are expanded, each of them valid where it stands. -/
inductive Expands : Array UInt8 → List Token → Array UInt8 → Prop
  | nil (data : Array UInt8) : Expands data [] data
  | cons {data final : Array UInt8} {token : Token} {rest : List Token}
      (valid : token.IsValid data.size) (further : Expands (token.expand data) rest final) :
      Expands data (token :: rest) final

theorem Expands.concat {data final : Array UInt8} {tokens : List Token} {token : Token}
    (sofar : Expands data tokens final) (valid : token.IsValid final.size) :
    Expands data (tokens ++ [token]) (token.expand final) := by
  induction sofar with
  | nil data => exact .cons valid (.nil _)
  | cons first _ ih => exact .cons first (ih valid)

theorem Token.IsValid.mono {size more : Nat} {token : Token} (valid : token.IsValid size)
    (le : size ≤ more) : token.IsValid more := by
  cases valid with
  | byte value => exact .byte value
  | copy least most back near inside =>
    exact .copy least most back near (Nat.le_trans inside le)

/-- A copy does not notice what stands before the bytes that it copies. -/
theorem copyBack_append (before : Array UInt8) {distance : Nat} (back : 0 < distance) (length : Nat)
    {data : Array UInt8} (inside : distance ≤ data.size) :
    copyBack distance length (before ++ data) = before ++ copyBack distance length data := by
  induction length generalizing data with
  | zero => rfl
  | succ length ih =>
    have byte : (before ++ data).getD ((before ++ data).size - distance) 0
        = data.getD (data.size - distance) 0 := by
      have there : data.size - distance < data.size := by omega
      have place : (before ++ data).size - distance - before.size = data.size - distance := by
        rw [Array.size_append]
        omega
      rw [Array.getD_eq_getD_getElem?, Array.getD_eq_getD_getElem?,
        Array.getElem?_append_right (by rw [Array.size_append]; omega), place]
    rw [copyBack, byte, Array.push_append, ih]
    · rfl
    · rw [Array.size_push]
      exact Nat.le_succ_of_le inside

/-- Tokens do the same behind other data. -/
theorem Expands.behind {data final : Array UInt8} {tokens : List Token}
    (expands : Expands data tokens final) (before : Array UInt8) :
    Expands (before ++ data) tokens (before ++ final) := by
  induction expands with
  | nil data => exact .nil _
  | cons valid _ ih =>
    refine .cons (valid.mono (by rw [Array.size_append]; exact Nat.le_add_left _ _)) ?_
    cases valid with
    | byte value =>
      rw [Token.expand, Array.push_append]
      exact ih
    | copy least most back near inside =>
      rw [Token.expand, copyBack_append before back _ inside]
      exact ih

/-- The bytes before a place, and the one that stands there. -/
theorem push_extract {data : Array UInt8} {place : Nat} (inside : place < data.size) :
    (data.extract 0 place).push (data.getD place 0) = data.extract 0 (place + 1) := by
  rw [← Array.getElem_eq_getD (h := inside), Array.push_extract_getElem inside, Nat.zero_min]

/-- Where the bytes agree with those so far back, copying goes on with the data. -/
theorem copyBack_extract {data : Array UInt8} {place length distance : Nat}
    (inside : place + length ≤ data.size) (back : 0 < distance) (after_start : distance ≤ place)
    (same : ∀ index < length,
      data.getD (place - distance + index) 0 = data.getD (place + index) 0) :
    copyBack distance length (data.extract 0 place) = data.extract 0 (place + length) := by
  induction length generalizing place with
  | zero => rfl
  | succ length ih =>
    have size : (data.extract 0 place).size = place := by
      rw [Array.size_extract]
      omega
    have byte : (data.extract 0 place).getD (place - distance) 0 = data.getD place 0 := by
      have there : place - distance < (data.extract 0 place).size := by omega
      rw [← Array.getElem_eq_getD (h := there), Array.getElem_extract, Array.getElem_eq_getD 0,
        Nat.zero_add]
      exact same 0 (Nat.succ_pos length)
    -- The copied byte is the next one of the data, so the copy goes on from one place further.
    rw [copyBack, size, byte, push_extract (by omega), ih (by omega) (by omega)]
    · rw [Nat.add_right_comm, Nat.add_assoc]
    · intro index h
      have next := same (index + 1) (Nat.succ_lt_succ h)
      rwa [show place - distance + (index + 1) = place + 1 - distance + index by omega,
        show place + (index + 1) = place + 1 + index by omega] at next

theorem Expands.concat_byte {data : Array UInt8} {place : Nat} {found : Array Token}
    (inside : place < data.size) (sofar : Expands #[] found.toList (data.extract 0 place)) :
    Expands #[] (found.push (.byte data[place])).toList (data.extract 0 (place + 1)) := by
  rw [Array.toList_push, ← push_extract inside, ← Array.getElem_eq_getD (h := inside)]
  exact sofar.concat (.byte _)

theorem Expands.concat_match {data : Array UInt8} {place : Nat} {found : Array Token}
    (sofar : Expands #[] found.toList (data.extract 0 place)) {best : Match}
    (stands : best.Stands data place) :
    Expands #[] (found.push best.token).toList (data.extract 0 (place + best.length)) := by
  have inside := stands.inside
  have size : (data.extract 0 place).size = place := by
    rw [Array.size_extract]
    omega
  rw [Array.toList_push,
    ← copyBack_extract stands.inside stands.back stands.after_start stands.same]
  refine sofar.concat (.copy stands.least stands.most stands.back stands.near ?_)
  rw [size]
  exact stands.after_start

theorem Expands.of_extract {data : Array UInt8} {place : Nat} {tokens : List Token}
    (sofar : Expands #[] tokens (data.extract 0 place)) (inside : data.size ≤ place) :
    Expands #[] tokens data := by
  rwa [Array.extract_eq_self_of_le inside] at sofar

namespace Effort

variable (effort : Effort) {searched : Searched} {place : Nat} {known : Option Match} {best : Match}

/-- The match of a place stands, whether it was known before or is found now. -/
theorem stands_of_or (back : Searched.LeadsBack searched.links) (inside : place < searched.data.size)
    (stands : ∀ best, known = some best → best.Stands searched.data place)
    (some : known.or (effort.find? searched place (Token.minLength - 1)) = some best) :
    best.Stands searched.data place := by
  rcases Option.or_eq_some_iff.mp some with before | ⟨-, now⟩
  · exact stands best before
  · exact Searched.stands_of_find? back (Nat.le_of_lt inside) (by decide) now

theorem stands_of_findBetter? (back : Searched.LeadsBack searched.links)
    (inside : place < searched.data.size) {found : Match} (least : Token.minLength ≤ found.length)
    (some : effort.findBetter? searched place found = some best) :
    best.Stands searched.data (place + 1) := by
  rw [findBetter?] at some
  split at some
  · exact Searched.stands_of_find? back inside (Nat.le_succ_of_le least) some
  · cases some

theorem expands_cutFrom (back : Searched.LeadsBack searched.links) {found : Array Token}
    (stands : ∀ best, known = some best → best.Stands searched.data place)
    (sofar : Expands #[] found.toList (searched.data.extract 0 place)) :
    Expands #[] (effort.cutFrom searched place known found).toList searched.data := by
  fun_induction effort.cutFrom searched place known found with
  | case1 place known found inside byte none ih => exact ih nofun (sofar.concat_byte inside)
  | case2 place known found inside byte best some better later ih =>
    -- The next place has a better match, so this one gives only a byte.
    refine ih ?_ (sofar.concat_byte inside)
    intro other same
    obtain rfl := Option.some.inj same
    have here := effort.stands_of_or back inside stands some
    exact effort.stands_of_findBetter? back inside here.least later
  | case3 place known found inside best some none ih =>
    exact ih nofun (sofar.concat_match (effort.stands_of_or back inside stands some))
  | case4 place known found outside => exact sofar.of_extract (Nat.not_lt.mp outside)

end Effort

namespace Hasty

theorem stands_of_match? {data : Array UInt8} {place source : Nat} (inside : place < data.size)
    {found : Match} (some : match? data place source = some found) : found.Stands data place := by
  rw [match?] at some
  split at some
  next long =>
    obtain rfl := Option.some.inj some
    obtain ⟨long, before, near⟩ := long
    have left : leftOfPiece data place ≤ data.size - place :=
      Nat.sub_le_sub_right (Nat.min_le_left _ _) place
    refine Match.stands_of_agreement (Nat.min_le_left _ _) ?_ before ?_ long _
    · omega
    · omega
  next => cases some

theorem expands_cutFrom {data : Array UInt8} {place : Nat} {latest : Array Nat}
    {found : Array Token} (sofar : Expands #[] found.toList (data.extract 0 place)) :
    Expands #[] (cutFrom data place latest found).toList data := by
  fun_induction cutFrom data place latest found with
  | case1 place latest found inside few ih => exact ih (sofar.concat_byte inside)
  | case2 place latest found inside many bucket source latest' best some ih =>
    obtain ⟨some, -⟩ := Option.filter_eq_some_iff.mp some
    exact ih (sofar.concat_match (stands_of_match? inside some))
  | case3 place latest found inside many bucket source latest' none ih =>
    exact ih (sofar.concat_byte inside)
  | case4 place latest found outside => exact sofar.of_extract (Nat.not_lt.mp outside)

end Hasty

/-- Whatever the level, the tokens that data are cut into expand to the data. -/
theorem expands_tokens (level : Nat) (data : Array UInt8) :
    Expands #[] (tokens level data).toList data := by
  have sofar : Expands #[] #[].toList (data.extract 0 0) := by
    rw [Array.extract_zero]
    exact .nil #[]
  rw [tokens]
  split
  · exact Hasty.expands_cutFrom sofar
  · exact Effort.expands_cutFrom _ (Searched.leadsBack_ofData data) nofun sofar

end PdfFilters
