/-
  Core/Bencode/Progress.lean --- every call moves on, unless a length wraps.

  The bounds check of `parseString` adds the position and the length modulo 2^64,
  and so does the step over the string.  `JumpsBack` is the case in which the sum
  wraps to a position that is not behind the one the call began at.  When no call
  meets it, every call that returns has moved on and the parser ends; when one
  does, that call returns without having moved on.
-/
import BitTorrentClient.Core.Bencode.Calls
import BitTorrentClient.Core.Bencode.Numerals

set_option autoImplicit false

namespace BitTorrentClient.Bencode.Detail

open Library

variable {data : Bytes}

/-! ## Statements -/

/-- The call returns, with this position. -/
def Call.Returns (data : Bytes) : Call → Nat → Prop
  | .parse p d, q => ∃ fuel v, Detail.parse data fuel p d = .ok (v, q)
  | .parseInt p, q => ∃ v, Detail.parseInt data p = .ok (v, q)
  | .parseString p, q => ∃ v, Detail.parseString data p = .ok (v, q)
  | .parseList p d, q =>
      ∃ fuel v, Detail.parseList (Detail.parse data fuel) fuel data p d = .ok (v, q)
  | .parseDict p d, q =>
      ∃ fuel v, Detail.parseDict (Detail.parse data fuel) fuel data p d = .ok (v, q)

/-- The position a call begins at. -/
def Call.pos : Call → Nat
  | .parse p _ => p
  | .parseInt p => p
  | .parseString p => p
  | .parseList p _ => p
  | .parseDict p _ => p

/-- Every call made that returns leaves the position further on, inside the data. -/
def Progress (data : Bytes) : Prop :=
  ∀ c q, Made data (.call c) → c.Returns data q → c.pos < q ∧ q ≤ data.length

/-- Parsing the data does not run forever. -/
def Ends (data : Bytes) : Prop := ∃ fuel, Bencode.parse fuel data ≠ .error .unfinished

/-- The prefix at `p` is a length for which the position wraps around, to one that
is not behind `p`. -/
def JumpsBack (data : Bytes) (p : Nat) : Prop :=
  ∃ colon len, find data colonMark p = some colon ∧
    stoul (slice data p (colon - p)) = .ok len ∧
    2 ^ 64 ≤ colon + 1 + len ∧ colon + 1 + len ≤ 2 ^ 64 + p

/-! ## Leaves -/

/-- A string that is read moves on exactly when its length does not jump back. -/
theorem StringAt.lt_iff (hsize : data.length < 2 ^ 64) {p colon len : Nat}
    (h : StringAt data p colon len) :
    p < u64 (colon + 1 + len) ↔ ¬ JumpsBack data p := by
  have hcolon := find_lt h.mark
  have hle := (find_eq_some h.mark).1
  have hlen := stoul_lt h.number
  have hjump : JumpsBack data p ↔ 2 ^ 64 ≤ colon + 1 + len ∧ colon + 1 + len ≤ 2 ^ 64 + p := by
    constructor
    · rintro ⟨colon', len', hmark, hnumber, hwrap⟩
      obtain rfl := Option.some.inj (h.mark.symm.trans hmark)
      obtain rfl := Except.ok.inj (h.number.symm.trans hnumber)
      exact hwrap
    · exact fun hwrap => ⟨colon, len, h.mark, h.number, hwrap⟩
  rw [hjump, u64]
  omega

/-- A length that jumps back passes the bounds check. -/
theorem JumpsBack.stringAt (hsize : data.length < 2 ^ 64) {p : Nat} (h : JumpsBack data p) :
    ∃ colon len, StringAt data p colon len := by
  obtain ⟨colon, len, hmark, hnumber, hwrap, hback⟩ := h
  have hcolon := find_lt hmark
  have hle := (find_eq_some hmark).1
  have hlen := stoul_lt hnumber
  refine ⟨colon, len, hmark, hnumber, ?_⟩
  rw [u64]
  omega

theorem IntAt.lt {p e : Nat} {n : Int64} (h : IntAt data p e n) :
    p < e + 1 ∧ e + 1 ≤ data.length := by
  have hlt := find_lt h.mark
  have hle := (find_eq_some h.mark).1
  omega

/-! ## No jump, no stall -/

/-- Steps that go up, and stay among the heads of a loop, lead up. -/
theorem lt_of_steps {R : Nat → Nat → Prop} {H : Nat → Prop}
    (hstep : ∀ q r, H q → R q r → q < r ∧ H r) {p q : Nat} (hp : H p)
    (h : Relation.TransGen R p q) : p < q ∧ H q := by
  induction h with
  | single hturn => exact hstep _ _ hp hturn
  | tail _ hturn ih =>
    obtain ⟨hlt, hhead⟩ := hstep _ _ ih.2 hturn
    exact ⟨ih.1.trans hlt, hhead⟩

/-- A value takes up room; the elements of a container may not. -/
def Moves (r : Reading) (p q : Nat) : Prop :=
  match r with
  | .value _ => p < q
  | .items _ => p ≤ q
  | .pairs _ => p ≤ q

section NoJump

variable (hsize : data.length < 2 ^ 64)
  (hjump : ∀ p, Made data (.call (.parseString p)) → ¬ JumpsBack data p)

include hsize hjump

theorem Reads.moves {p d q : Nat} {r : Reading} {strings : List Nat}
    (h : Reads data p d r q strings) (hmade : Made data (startPoint r p d)) :
    Moves r p q ∧ q ≤ data.length := by
  induction h with
  | int _ hint => exact hint.lt
  | str hdepth hc hdigit hstring =>
    have hmoves := (hstring.lt_iff hsize).mpr (hjump _ (hmade.string hdepth hc hdigit))
    exact ⟨hmoves, hstring.fits⟩
  | list hdepth hc hitems ih =>
    obtain ⟨hle, _⟩ := ih (hmade.list hdepth hc).listHead
    have hend := (List.getElem?_eq_some_iff.mp (hitems.atEnd (by simp))).1
    simp only [Moves] at hle ⊢
    omega
  | dict hdepth hc hpairs ih =>
    obtain ⟨hle, _⟩ := ih (hmade.dict hdepth hc).dictHead
    have hend := (List.getElem?_eq_some_iff.mp (hpairs.atEnd (by simp))).1
    simp only [Moves] at hle ⊢
    omega
  | noItems hend =>
    exact ⟨Nat.le_refl _, Nat.le_of_lt (List.getElem?_eq_some_iff.mp hend).1⟩
  | item hmore hv _ ihv ihrest =>
    obtain ⟨hlt, _⟩ := ihv (hmade.item hmore)
    obtain ⟨hle, hin⟩ := ihrest (hmade.nextItem hmore hv)
    simp only [Moves] at hlt hle ⊢
    omega
  | noPairs hend =>
    exact ⟨Nat.le_refl _, Nat.le_of_lt (List.getElem?_eq_some_iff.mp hend).1⟩
  | pair hmore hstring hv _ ihv ihrest =>
    have hkey := (hstring.lt_iff hsize).mpr (hjump _ (hmade.key hmore))
    obtain ⟨hlt, _⟩ := ihv (hmade.pairValue hmore hstring)
    obtain ⟨hle, hin⟩ := ihrest (hmade.nextPair hmore hstring hv)
    simp only [Moves] at hlt hle ⊢
    omega

/-- Loops move on, so they do not come back. -/
theorem not_revisits : ¬ Revisits data := by
  rintro (⟨p, d, hmade, hcycle⟩ | ⟨p, d, hmade, hcycle⟩)
  · have hstep : ∀ q r, Made data (.listHead q d) → ListTurn data d q r →
        q < r ∧ Made data (.listHead r d) := by
      rintro q r hq ⟨hmore, v, strings, hv⟩
      exact ⟨(hv.moves hsize hjump (hq.item hmore)).1, hq.nextItem hmore hv⟩
    exact absurd (lt_of_steps hstep hmade hcycle).1 (Nat.lt_irrefl p)
  · have hstep : ∀ q r, Made data (.dictHead q d) → DictTurn data d q r →
        q < r ∧ Made data (.dictHead r d) := by
      rintro q r hq ⟨hmore, colon, len, v, strings, hstring, hv⟩
      have hkey := (hstring.lt_iff hsize).mpr (hjump _ (hq.key hmore))
      have hvalue := (hv.moves hsize hjump (hq.pairValue hmore hstring)).1
      exact ⟨hkey.trans hvalue, hq.nextPair hmore hstring hv⟩
    exact absurd (lt_of_steps hstep hmade hcycle).1 (Nat.lt_irrefl p)

end NoJump

/-! ## The calls in terms of readings -/

theorem ends_iff : Ends data ↔ ¬ Revisits data := by
  rw [← outcome_unfinished_iff, ← Bencode.outcome_error_iff, Bencode.outcome,
    eventually_eq_unfinished_iff (Bencode.parse_rising data), not_forall, Ends]

/-- A prefix that jumps back is a call that returns without having moved on. -/
theorem Progress.not_jumpsBack (hsize : data.length < 2 ^ 64) (h : Progress data) {p : Nat}
    (hmade : Made data (.call (.parseString p))) : ¬ JumpsBack data p := by
  intro hjump
  obtain ⟨colon, len, hstring⟩ := hjump.stringAt hsize
  have hreturns : (Call.parseString p).Returns data (u64 (colon + 1 + len)) :=
    ⟨_, parseString_eq_ok.mpr ⟨colon, len, hstring, rfl⟩⟩
  exact (hstring.lt_iff hsize).mp (h _ _ hmade hreturns).1 hjump

/-- Without such a prefix every call that returns has moved on. -/
theorem progress_of_not_jumpsBack (hsize : data.length < 2 ^ 64)
    (hjump : ∀ p, Made data (.call (.parseString p)) → ¬ JumpsBack data p) : Progress data := by
  intro c q hmade hreturns
  cases c with
  | parse p d =>
    obtain ⟨fuel, v, h⟩ := hreturns
    obtain ⟨strings, hreads⟩ := reads_of_parse h
    exact hreads.moves hsize hjump hmade
  | parseInt p =>
    obtain ⟨v, h⟩ := hreturns
    obtain ⟨e, n, hint, heq⟩ := parseInt_eq_ok.mp h
    obtain ⟨rfl, rfl⟩ := Prod.mk.inj heq
    exact hint.lt
  | parseString p =>
    obtain ⟨v, h⟩ := hreturns
    obtain ⟨colon, len, hstring, heq⟩ := parseString_eq_ok.mp h
    obtain ⟨rfl, rfl⟩ := Prod.mk.inj heq
    exact ⟨(hstring.lt_iff hsize).mpr (hjump p hmade), hstring.fits⟩
  | parseList p d =>
    obtain ⟨fuel, v, h⟩ := hreturns
    obtain ⟨hdepth, hc, hparse⟩ := hmade.list_start
    obtain ⟨strings, hreads⟩ :=
      reads_of_parseList (fun _ _ _ _ => reads_of_parse) hdepth hc h
    exact hreads.moves hsize hjump hparse
  | parseDict p d =>
    obtain ⟨fuel, v, h⟩ := hreturns
    obtain ⟨hdepth, hc, hparse⟩ := hmade.dict_start
    obtain ⟨strings, hreads⟩ :=
      reads_of_parseDict (fun _ _ _ _ => reads_of_parse) hdepth hc h
    exact hreads.moves hsize hjump hparse

/-- **Progress and termination.**  Parsing ends and every call that returns moves on
inside the data, exactly when no length prefix that is read jumps back; and it
then ends with a value or an exception exactly when, besides, nothing is read
behind the end of the data. -/
theorem progress_iff (data : Bytes) (hsize : data.length < 2 ^ 64) :
    (Ends data ∧ Progress data ↔
      ∀ p, Made data (.call (.parseString p)) → ¬ JumpsBack data p) ∧
    (((∃ v, Bencode.Returns data v) ∨ ∃ e, Bencode.Throws data e) ∧ Progress data ↔
      (∀ p, Made data (.call (.parseString p)) → ¬ JumpsBack data p) ∧ ¬ ReadsPastEnd data) := by
  have hprogress : Progress data ↔
      ∀ p, Made data (.call (.parseString p)) → ¬ JumpsBack data p :=
    ⟨fun h _ => h.not_jumpsBack hsize, progress_of_not_jumpsBack hsize⟩
  have hloops : Progress data → ¬ Revisits data :=
    fun h => not_revisits hsize (hprogress.mp h)
  rw [ends_iff, Bencode.finishes_iff, ← hprogress]
  refine ⟨and_iff_right_of_imp hloops, ?_, ?_⟩
  · intro h
    exact ⟨h.2, h.1.1⟩
  · intro h
    exact ⟨⟨h.2, hloops h.1⟩, h.1⟩

/-- A dictionary whose first value is a string of a length that wraps back to the
first key. -/
def backToTheKey : Bytes := ascii "d0:18446744073709551593:"

/-- The value of the first pair ends where the first key begins, so the loop never
ends; and the call that read it came back with a position before its own. -/
theorem not_ends_backToTheKey :
    (∀ fuel, Bencode.parse fuel backToTheKey = .error .unfinished) ∧
      Made backToTheKey (.call (.parseString 3)) ∧
      Detail.parseString backToTheKey 3 = .ok (.str [], 1) ∧
      ¬ (Ends backToTheKey ∧ Progress backToTheKey) := by
  have hdict : Made backToTheKey (.call (.parseDict 0 0)) := Made.root.dict (by decide) rfl
  have hkey : StringAt backToTheKey 1 2 0 := ⟨rfl, rfl, by decide⟩
  have hlen : StringAt backToTheKey 3 23 18446744073709551593 := ⟨rfl, rfl, by decide⟩
  have hvalue : Reads backToTheKey 3 1 (.value (.str [])) 1 [3] :=
    .str (by decide) rfl (by decide) hlen
  have hrevisits : Revisits backToTheKey :=
    Or.inr ⟨1, 0, hdict.dictHead, .single ⟨rfl, 2, 0, .str [], [3], hkey, hvalue⟩⟩
  have hforever : ¬ Ends backToTheKey := fun h => ends_iff.mp h hrevisits
  have hmade : Made backToTheKey (.call (.parse 3 1)) := hdict.dictHead.pairValue rfl hkey
  refine ⟨fun fuel => ?_, hmade.string (by decide) rfl (by decide),
    parseString_eq_ok.mpr ⟨_, _, hlen, rfl⟩, fun h => hforever h.1⟩
  by_contra hfuel
  exact hforever ⟨fuel, hfuel⟩

/-- The one mark has no length of more than a byte before it. -/
theorem not_jumpsBack_oneKey (p : Nat) : ¬ JumpsBack (ascii "d1:ai1ee") p := by
  rintro ⟨colon, len, hmark, hnumber, hwrap, _⟩
  have hmarks : ∀ p < 8, find (ascii "d1:ai1ee") colonMark p ∈ [some 2, none] := by decide
  have hshort : ∀ p < 8, (stoul (slice (ascii "d1:ai1ee") p (2 - p))).toOption.getD 0 ≤ 1 := by
    decide
  have hp : p < 8 := Nat.lt_of_le_of_lt (find_eq_some hmark).1 (find_lt hmark)
  obtain rfl : colon = 2 := by simpa [hmark] using hmarks p hp
  have hlen : len ≤ 1 := by simpa [hnumber, Except.toOption] using hshort p hp
  omega

/-- The theorem on a dictionary of one pair: a length is read, and the loop takes a turn. -/
theorem progress_iff_oneKey :
    Made (ascii "d1:ai1ee") (.call (.parseString 1)) ∧
      (Ends (ascii "d1:ai1ee") ∧ Progress (ascii "d1:ai1ee")) ∧
      ¬ ReadsPastEnd (ascii "d1:ai1ee") := by
  have hdict : Made (ascii "d1:ai1ee") (.dictHead 1 0) :=
    (Made.root.dict (Nat.zero_le _) rfl).dictHead
  have hreturns : Bencode.Returns (ascii "d1:ai1ee") (.dict [(ascii "a", .int 1)]) := ⟨3, rfl⟩
  obtain ⟨hends, hproper⟩ := progress_iff (ascii "d1:ai1ee") (by decide)
  have hmoves := hends.mpr fun p _ => not_jumpsBack_oneKey p
  exact ⟨hdict.key rfl, hmoves, (hproper.mp ⟨Or.inl ⟨_, hreturns⟩, hmoves.2⟩).2⟩

end BitTorrentClient.Bencode.Detail
