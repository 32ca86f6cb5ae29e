/-
  Core/Bencode/Soundness.lean --- which inputs are parsed by the grammar.

  `NearMiss` are the inputs from whose start a value is read in a way the grammar
  does not have: with something behind the value, or with a length prefix that is
  no plain run of digits followed by that many octets.  Those inputs are accepted.
  Together with the inputs that are read behind the end and those on which a loop
  comes back, they are all on which the parser departs from the grammar.
-/
import BitTorrentClient.Core.Bencode.Grammar

set_option autoImplicit false

namespace BitTorrentClient.Bencode

open Library Detail

/-- Parsing returns what the grammar says the input denotes, or throws. -/
def Sound (s : Bytes) : Prop := (∃ v, Returns s v ∧ Denotes s v) ∨ ∃ e, Throws s e

/-- A value is read at the start, but not by the grammar: it is not the whole input,
or some length prefix is not plain. -/
def NearMiss (s : Bytes) : Prop :=
  ∃ v q strings, Reads s 0 0 (.value v) q strings ∧
    (q ≠ s.length ∨ ∃ p ∈ strings, ¬ Plain s p)

/-- What parsing returns was read at the start of the input. -/
theorem returns_reads {s : Bytes} {v : Value} :
    Returns s v ↔ ∃ q strings, Reads s 0 0 (.value v) q strings := by
  rw [returns_iff, outcome_eq]
  constructor
  · intro h
    obtain ⟨⟨v', q⟩, hv, h⟩ := bind_eq_ok.mp h
    cases h
    obtain ⟨strings, hreads⟩ := outcome_eq_ok.mp hv
    exact ⟨q, strings, hreads⟩
  · rintro ⟨q, strings, hreads⟩
    exact bind_eq_ok.mpr ⟨_, hreads.comes, rfl⟩

/-- A word of the grammar that is read at all is read plainly, to its end. -/
theorem Denotes.plain {s : Bytes} (hsize : s.length < 2 ^ 64) {v v' : Value} {q : Nat}
    {strings : List Nat} (h : Denotes s v) (hreads : Reads s 0 0 (.value v') q strings) :
    q = s.length ∧ ∀ p ∈ strings, Plain s p := by
  obtain ⟨depth, hword⟩ := h
  have hwhole : s.drop 0 = s ++ [] := (List.append_nil _).symm
  rcases Nat.lt_or_ge maxRecursionDepth (0 + depth) with hdeep | hdepth
  · have hthrows : Detail.outcome s 0 0 = throwing depthLimitExceeded :=
      Derives.too_deep hsize hword hwhole trivial hdeep
    have hvalue : Detail.outcome s 0 0 = .ok (v', q) := hreads.comes
    exact absurd (hthrows.symm.trans hvalue) (by simp [throwing])
  · obtain ⟨strings', hreads', hplain⟩ := Derives.reads hsize hword hwhole trivial hdepth
    obtain ⟨_, rfl, rfl⟩ := hreads.unique hreads' trivial
    exact ⟨Nat.zero_add _, hplain⟩

/-- An input that is accepted by a near miss is not sound. -/
theorem not_sound_of_nearMiss {s : Bytes} (hsize : s.length < 2 ^ 64) (h : NearMiss s) :
    ¬ Sound s := by
  obtain ⟨v, q, strings, hreads, hmiss⟩ := h
  have hvalue : Returns s v := returns_reads.mpr ⟨q, strings, hreads⟩
  rintro (⟨v', _, hdenotes⟩ | ⟨e, he⟩)
  · obtain ⟨hend, hplain⟩ := hdenotes.plain hsize hreads
    rcases hmiss with hq | ⟨p, hp, hnot⟩
    · exact hq hend
    · exact hnot (hplain p hp)
  · exact absurd ((returns_iff.mp hvalue).symm.trans (throws_iff.mp he)) (by simp)

/-- What is read without a near miss is a word of the grammar. -/
theorem denotes_of_reads {s : Bytes} (hsize : s.length < 2 ^ 64) {v : Value} {q : Nat}
    {strings : List Nat} (hreads : Reads s 0 0 (.value v) q strings)
    (hmiss : ¬ NearMiss s) : Denotes s v := by
  have hend : q = s.length := by
    by_contra hq
    exact hmiss ⟨v, q, strings, hreads, Or.inl hq⟩
  have hplain : ∀ p ∈ strings, Plain s p := by
    intro p hp
    by_contra hnot
    exact hmiss ⟨v, q, strings, hreads, Or.inr ⟨p, hp, hnot⟩⟩
  obtain ⟨depth, w, hword, hdrop, _⟩ := Reads.derives hsize hreads hplain
  rw [hend, List.drop_length, List.append_nil, List.drop_zero] at hdrop
  exact ⟨depth, hdrop ▸ hword⟩

/-- **Soundness.**  The parser follows the grammar on an input exactly when the
input is no near miss, is not read behind its end, and brings no loop back to a
position it was at. -/
theorem sound_iff (s : Bytes) (hsize : s.length < 2 ^ 64) :
    Sound s ↔ ¬ NearMiss s ∧ ¬ ReadsPastEnd s ∧ ¬ Revisits s := by
  rw [← finishes_iff]
  constructor
  · intro h
    refine ⟨fun hmiss => not_sound_of_nearMiss hsize hmiss h, ?_⟩
    exact h.imp (fun ⟨v, hv, _⟩ => ⟨v, hv⟩) id
  · rintro ⟨hmiss, ⟨v, hv⟩ | hthrows⟩
    · obtain ⟨q, strings, hreads⟩ := returns_reads.mp hv
      exact Or.inl ⟨v, hv, denotes_of_reads hsize hreads hmiss⟩
    · exact Or.inr hthrows

/-- The theorem on a dictionary of one pair, which is a word of the grammar. -/
theorem sound_iff_oneKey :
    Sound (ascii "d1:ai1ee") ∧ ¬ NearMiss (ascii "d1:ai1ee") ∧
      ¬ ReadsPastEnd (ascii "d1:ai1ee") ∧ ¬ Revisits (ascii "d1:ai1ee") := by
  have hvalue : Returns (ascii "d1:ai1ee") (.dict [(ascii "a", .int 1)]) := ⟨3, rfl⟩
  have hkey : Numeral (ascii "1") (ascii "a").length := numeral_decimal 1
  have hpair : Derives 1 (ascii "1:ai1e") (.pairs [(ascii "a", .int 1)]) :=
    .pair hkey (.int 1) .noPairs
  have hsound : Sound (ascii "d1:ai1ee") := Or.inl ⟨_, hvalue, 1, hpair.dict⟩
  exact ⟨hsound, (sound_iff (ascii "d1:ai1ee") (by decide)).mp hsound⟩

/-- An integer with a letter behind it is accepted, and so is a dictionary whose key
has a blank for a length prefix's first character. -/
theorem not_sound_trailing :
    (Returns (ascii "i1ex") (.int 1) ∧ ¬ Sound (ascii "i1ex")) ∧
    (Returns (ascii "d 1:ai1ee") (.dict [(ascii "a", .int 1)]) ∧ ¬ Sound (ascii "d 1:ai1ee")) := by
  refine ⟨⟨⟨1, rfl⟩, ?_⟩, ⟨3, rfl⟩, ?_⟩
  · refine not_sound_of_nearMiss (by decide) ⟨.int 1, 3, [], ?_, Or.inl (by decide)⟩
    exact .int (by decide) ⟨rfl, rfl, rfl, rfl⟩
  · have hstring : StringAt (ascii "d 1:ai1ee") 1 3 1 := ⟨rfl, rfl, by decide⟩
    have hvalue : Reads (ascii "d 1:ai1ee") 5 1 (.value (.int 1)) 8 [] :=
      .int (by decide) ⟨rfl, rfl, rfl, rfl⟩
    have hend : Reads (ascii "d 1:ai1ee") 8 0 (.pairs []) 8 [] := .noPairs rfl
    have hpairs := Reads.pair rfl hstring hvalue hend
    refine not_sound_of_nearMiss (by decide)
      ⟨_, 9, [1], .dict (by decide) rfl hpairs, Or.inr ⟨1, by simp, ?_⟩⟩
    rintro ⟨digits, bytes, rest, hnum, hdrop⟩
    obtain ⟨c, tail, rfl⟩ := List.exists_cons_of_ne_nil hnum.nonempty
    have hc : c = 32 := (List.cons.inj hdrop).1.symm
    exact absurd (hnum.allDigits c List.mem_cons_self) (by rw [hc]; decide)

end BitTorrentClient.Bencode
