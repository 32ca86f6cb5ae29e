/-
  Core/Bencode/Accesses.lean --- what parsing reads of the data.

  The data are a view of bytes, with nothing behind them that could be relied on.  Every
  `data[pos]` and every `data.substr(pos, ..)` of the source is a rule here, at the
  points the control comes to.  The loops and `_expectChar` test the position first, and
  `substr` only ever starts behind a mark that was found; `parse` relies on its caller,
  and the caller that has just read a dictionary key does not know that anything is left.
-/
import BitTorrentClient.Core.Bencode.Calls
import BitTorrentClient.Core.Bencode.Numerals

set_option autoImplicit false

namespace BitTorrentClient.Bencode.Detail

open Library

variable {data : Bytes}

/-- The positions at which `data[pos]` is evaluated. -/
inductive Indexes (data : Bytes) : Nat → Prop
  /-- `firstChar`, after the tests of `parse` -/
  | firstChar {p d : Nat} : Made data (.call (.parse p d)) → data.isEmpty = false →
      d ≤ maxRecursionDepth → Indexes data p
  /-- the first test of `parseInt` -/
  | intStart {p : Nat} : Made data (.call (.parseInt p)) → Indexes data p
  /-- `_expectChar` at the start of a list -/
  | listStart {p d : Nat} : Made data (.call (.parseList p d)) → p < data.length → Indexes data p
  /-- the condition of the loop of `parseList`, and `_expectChar` behind the loop -/
  | listHead {p d : Nat} : Made data (.listHead p d) → p < data.length → Indexes data p
  /-- `_expectChar` at the start of a dictionary -/
  | dictStart {p d : Nat} : Made data (.call (.parseDict p d)) → p < data.length → Indexes data p
  /-- the condition of the loop of `parseDict`, and `_expectChar` behind the loop -/
  | dictHead {p d : Nat} : Made data (.dictHead p d) → p < data.length → Indexes data p

/-- The positions at which `data.substr(pos, ..)` is evaluated. -/
inductive Substrs (data : Bytes) : Nat → Prop
  /-- the payload of an integer -/
  | num {p e : Nat} : Made data (.call (.parseInt p)) → find data endMark (p + 1) = some e →
      Substrs data (p + 1)
  /-- the length prefix of a string -/
  | lenStr {p colon : Nat} : Made data (.call (.parseString p)) →
      find data colonMark p = some colon → Substrs data p
  /-- the string itself -/
  | value {p colon len : Nat} : Made data (.call (.parseString p)) → StringAt data p colon len →
      Substrs data (colon + 1)

/-- Nothing behind the end of the data is read. -/
structure InBounds (data : Bytes) : Prop where
  indexes : ∀ pos, Indexes data pos → pos < data.length
  substrs : ∀ pos, Substrs data pos → pos ≤ data.length

/-- A value that belongs at `p` is missing: the data end there, or it is a container, and
behind some complete elements the value of the next one is missing. -/
inductive ValueMissing (data : Bytes) : Nat → Nat → Prop
  | ended {p d : Nat} : d ≤ maxRecursionDepth → data.isEmpty = false → p = data.length →
      ValueMissing data p d
  | inList {p q d : Nat} : d ≤ maxRecursionDepth → data[p]? = some listStart →
      Relation.ReflTransGen (ListTurn data d) (p + 1) q → moreItems data q = true →
      ValueMissing data q (d + 1) → ValueMissing data p d
  | inDict {p q d colon len : Nat} : d ≤ maxRecursionDepth → data[p]? = some dictStart →
      Relation.ReflTransGen (DictTurn data d) (p + 1) q → moreItems data q = true →
      StringAt data q colon len → ValueMissing data (u64 (colon + 1 + len)) (d + 1) →
      ValueMissing data p d

/-! ## Reads of the first character -/

/-- `parse` is called inside the data or at their end. -/
theorem Made.parse_le {p d : Nat} (h : Made data (.call (.parse p d))) : p ≤ data.length := by
  cases h with
  | root => exact Nat.zero_le _
  | item _ hmore => exact Nat.le_of_lt (moreItems_lt hmore)
  | pairValue _ _ hstring => exact hstring.fits

/-- From the head of the loop of a list on, a value is missing. -/
def ListMissing (data : Bytes) (p d : Nat) : Prop :=
  ∃ q, Relation.ReflTransGen (ListTurn data d) p q ∧ moreItems data q = true ∧
    ValueMissing data q (d + 1)

/-- From the head of the loop of a dictionary on, a value is missing. -/
def DictMissing (data : Bytes) (p d : Nat) : Prop :=
  ∃ q colon len, Relation.ReflTransGen (DictTurn data d) p q ∧ moreItems data q = true ∧
    StringAt data q colon len ∧ ValueMissing data (u64 (colon + 1 + len)) (d + 1)

/-- From the point on, a value is missing. -/
def MissingAt (data : Bytes) : Point → Prop
  | .call (.parse p d) => ValueMissing data p d
  | .call (.parseList p d) => ListMissing data (p + 1) d
  | .call (.parseDict p d) => DictMissing data (p + 1) d
  | .listHead p d => ListMissing data p d
  | .dictHead p d => DictMissing data p d
  | .call (.parseInt _) | .call (.parseString _) => False

/-- What is missing at a point that parsing comes to is missing in the whole. -/
theorem Made.missing {point : Point} (h : Made data point) (hmissing : MissingAt data point) :
    ValueMissing data 0 0 := by
  induction h with
  | root => exact hmissing
  | int _ _ _ _ => exact hmissing.elim
  | string _ _ _ _ _ => exact hmissing.elim
  | list _ hdepth hc ih =>
    obtain ⟨q, hturns, hmore, hvalue⟩ := hmissing
    exact ih (.inList hdepth hc hturns hmore hvalue)
  | dict _ hdepth hc ih =>
    obtain ⟨q, colon, len, hturns, hmore, hstring, hvalue⟩ := hmissing
    exact ih (.inDict hdepth hc hturns hmore hstring hvalue)
  | listHead _ ih => exact ih hmissing
  | item _ hmore ih => exact ih ⟨_, .refl, hmore, hmissing⟩
  | nextItem _ hmore hreads ih =>
    obtain ⟨q, hturns, hrest⟩ := hmissing
    exact ih ⟨q, hturns.head ⟨hmore, _, _, hreads⟩, hrest⟩
  | dictHead _ ih => exact ih hmissing
  | key _ _ _ => exact hmissing.elim
  | pairValue _ hmore hstring ih => exact ih ⟨_, _, _, .refl, hmore, hstring, hmissing⟩
  | nextPair _ hmore hstring hreads ih =>
    obtain ⟨q, colon, len, hturns, hrest⟩ := hmissing
    exact ih ⟨q, colon, len, hturns.head ⟨hmore, _, _, _, _, hstring, hreads⟩, hrest⟩

/-- The loop of a list comes to every position its turns lead to. -/
theorem Made.listHead_of_turns {p q d : Nat} (h : Made data (.listHead p d))
    (hturns : Relation.ReflTransGen (ListTurn data d) p q) : Made data (.listHead q d) := by
  induction hturns with
  | refl => exact h
  | tail _ hturn ih =>
    obtain ⟨hmore, v, strings, hreads⟩ := hturn
    exact ih.nextItem hmore hreads

theorem Made.dictHead_of_turns {p q d : Nat} (h : Made data (.dictHead p d))
    (hturns : Relation.ReflTransGen (DictTurn data d) p q) : Made data (.dictHead q d) := by
  induction hturns with
  | refl => exact h
  | tail _ hturn ih =>
    obtain ⟨hmore, colon, len, v, strings, hstring, hreads⟩ := hturn
    exact ih.nextPair hmore hstring hreads

/-- Where a value is missing, the first character of one is looked for behind the end. -/
theorem ValueMissing.readsPastEnd {p d : Nat} (h : ValueMissing data p d)
    (hmade : Made data (.call (.parse p d))) : ReadsPastEnd data := by
  induction h with
  | @ended p d hdepth hne hend =>
    refine ⟨p, d, hmade, ?_, hdepth, Nat.le_of_eq hend.symm⟩
    simpa using hne
  | inList hdepth hc hturns hmore _ ih =>
    exact ih (((hmade.list hdepth hc).listHead.listHead_of_turns hturns).item hmore)
  | inDict hdepth hc hturns hmore hstring _ ih =>
    exact ih (((hmade.dict hdepth hc).dictHead.dictHead_of_turns hturns).pairValue hmore hstring)

theorem readsPastEnd_iff : ReadsPastEnd data ↔ ValueMissing data 0 0 := by
  constructor
  · rintro ⟨p, d, hmade, hne, hdepth, hlen⟩
    have hend := Nat.le_antisymm hmade.parse_le hlen
    exact hmade.missing (.ended hdepth (by simpa using hne) hend)
  · exact fun h => h.readsPastEnd .root

/-! ## Every access -/

/-- `substr` starts inside the data or at their end, whatever the data are. -/
theorem Substrs.le {pos : Nat} (h : Substrs data pos) : pos ≤ data.length := by
  cases h with
  | num _ hmark =>
    have hlt := find_lt hmark
    have hle := (find_eq_some hmark).1
    omega
  | lenStr _ hmark =>
    have hlt := find_lt hmark
    have hle := (find_eq_some hmark).1
    omega
  | value _ hstring => exact find_lt hstring.mark

/-- No access but that of the first character of a value can leave the data. -/
theorem Indexes.lt {pos : Nat} (h : Indexes data pos) (hpast : ¬ ReadsPastEnd data) :
    pos < data.length := by
  cases h with
  | firstChar hmade hne hdepth =>
    by_contra hbehind
    exact hpast ⟨_, _, hmade, by simpa using hne, hdepth, Nat.le_of_not_lt hbehind⟩
  | intStart hmade =>
    cases hmade with
    | int _ _ hc => exact (List.getElem?_eq_some_iff.mp hc).1
  | listStart _ hlt => exact hlt
  | listHead _ hlt => exact hlt
  | dictStart _ hlt => exact hlt
  | dictHead _ hlt => exact hlt

/-- Every access is inside the data unless the first character of a value is not. -/
theorem inBounds_iff_not_readsPastEnd : InBounds data ↔ ¬ ReadsPastEnd data := by
  constructor
  · rintro h ⟨p, d, hmade, hne, hdepth, hlen⟩
    have hlt := h.indexes p (.firstChar hmade (by simpa using hne) hdepth)
    exact absurd hlen (Nat.not_le.mpr hlt)
  · exact fun hpast => ⟨fun _ h => h.lt hpast, fun _ h => h.le⟩

/-- The parser as it runs faults exactly when an access leaves the data. -/
theorem faults_iff_not_inBounds : (∃ f, Faults data f) ↔ ¬ InBounds data := by
  rw [inBounds_iff_not_readsPastEnd, not_not, ← outcome_fault_iff]
  exact exists_congr fun _ => faults_iff

/-- **The parser stays inside its data** if and only if no value is missing: the data do
not end where a value belongs, which behind the first character can only be right behind
the key of a dictionary.  Where an access leaves the data, `parse` comes to a fault. -/
theorem inBounds_iff (data : Bytes) :
    (InBounds data ↔ ¬ ValueMissing data 0 0) ∧
    ((∃ f, Faults data f) ↔ ¬ InBounds data) :=
  ⟨inBounds_iff_not_readsPastEnd.trans readsPastEnd_iff.not, faults_iff_not_inBounds⟩

/-- A dictionary that is cut off behind its first key. -/
theorem not_inBounds_cutOff :
    Indexes (ascii "d1:a") 4 ∧ (ascii "d1:a").length = 4 ∧ ¬ InBounds (ascii "d1:a") := by
  have hstring : StringAt (ascii "d1:a") 1 2 1 := ⟨rfl, rfl, by decide⟩
  have hdict : Made (ascii "d1:a") (.dictHead 1 0) :=
    (Made.root.dict (Nat.zero_le _) rfl).dictHead
  have hread : Indexes (ascii "d1:a") 4 :=
    .firstChar (hdict.pairValue rfl hstring) rfl (by decide)
  exact ⟨hread, rfl, fun h => Nat.lt_irrefl 4 (h.indexes 4 hread)⟩

end BitTorrentClient.Bencode.Detail
