/-
  Library/Ledger.lean --- items lent by one keeper to many parties.

  The keeper knows which items are out and who borrowed each of them last.  Every
  party has an account of the items it answers for.  The two sides are updated at
  different moments, so they may drift apart in two directions: an item that is out
  and in nobody's account is lost (`Covered` fails), and an item in the account of
  a party to whom it is not lent may be lent a second time (`Exclusive` fails).

  Two moves are enough to describe a step of either side: `lend` gives an item out,
  `release` takes items back and rewrites the account of one party.  The lemmas say
  what a release has to respect so that it keeps either property.

  Nothing here mentions a particular keeper or party.
-/
import Mathlib.Data.Set.Insert
import Mathlib.Logic.Function.Basic

set_option autoImplicit false

namespace BitTorrentClient.Library

/-- Who has what, according to the keeper and according to the parties. -/
@[ext]
structure Ledger (ι κ : Type) where
  /-- The items that are out. -/
  lent : Set κ
  /-- Who borrowed an item last. -/
  borrower : κ → Option ι
  /-- The items a party answers for. -/
  account : ι → Set κ

namespace Ledger

variable {ι κ : Type}

/-- The party `i` has borrowed `k` and not given it back. -/
def Owes (L : Ledger ι κ) (i : ι) (k : κ) : Prop := k ∈ L.lent ∧ L.borrower k = some i

/-- Somebody answers for every item that is out. -/
def Covered (L : Ledger ι κ) : Prop := ∀ k ∈ L.lent, ∃ i, L.Owes i k ∧ k ∈ L.account i

/-- Nobody answers for an item that is not lent to him. -/
def Exclusive (L : Ledger ι κ) : Prop := ∀ i, ∀ k ∈ L.account i, L.Owes i k

/-- The account of one party only may name an item. -/
theorem Exclusive.eq {L : Ledger ι κ} (h : L.Exclusive) {i j : ι} {k : κ}
    (hi : k ∈ L.account i) (hj : k ∈ L.account j) : i = j :=
  Option.some.inj ((h i k hi).2.symm.trans (h j k hj).2)

variable [DecidableEq ι]

/-- Take the items `back` back and replace the account of `i`. -/
def release (L : Ledger ι κ) (i : ι) (back account : Set κ) : Ledger ι κ where
  lent := L.lent \ back
  borrower := L.borrower
  account := Function.update L.account i account

/-- A release keeps the items covered when the party goes on to answer for what it
owes, the returned items apart. -/
theorem Covered.release {L : Ledger ι κ} (h : L.Covered) {i : ι} {back account : Set κ}
    (hkeeps : ∀ k ∈ L.account i, L.Owes i k → k ∉ back → k ∈ account) :
    (L.release i back account).Covered := by
  rintro k ⟨hlent, hout⟩
  obtain ⟨j, howes, hj⟩ := h k hlent
  refine ⟨j, ⟨⟨hlent, hout⟩, howes.2⟩, ?_⟩
  by_cases heq : j = i
  · subst heq
    simpa [Ledger.release] using hkeeps k hj howes hout
  · simpa [Ledger.release, heq] using hj

/-- A release keeps the accounts exclusive when the party answers for nothing new
and nobody answers for the returned items. -/
theorem Exclusive.release {L : Ledger ι κ} (h : L.Exclusive) {i : ι} {back account : Set κ}
    (hless : account ⊆ L.account i) (hgone : ∀ k ∈ account, k ∉ back)
    (hothers : ∀ j, j ≠ i → ∀ k ∈ L.account j, k ∉ back) :
    (L.release i back account).Exclusive := by
  intro j k hk
  by_cases heq : j = i
  · subst heq
    have hk : k ∈ account := by simpa [Ledger.release] using hk
    have howes := h j k (hless hk)
    exact ⟨⟨howes.1, hgone k hk⟩, howes.2⟩
  · have hk : k ∈ L.account j := by simpa [Ledger.release, heq] using hk
    have howes := h j k hk
    exact ⟨⟨howes.1, hothers j heq k hk⟩, howes.2⟩

variable [DecidableEq κ]

/-- Lend `k` to `i`, who answers for it from now on. -/
def lend (L : Ledger ι κ) (i : ι) (k : κ) : Ledger ι κ where
  lent := insert k L.lent
  borrower := Function.update L.borrower k (some i)
  account := Function.update L.account i (insert k (L.account i))

theorem Owes.lend {L : Ledger ι κ} {i j : ι} {k l : κ} (h : L.Owes j l) (hne : l ≠ k) :
    (L.lend i k).Owes j l :=
  ⟨Or.inr h.1, by simpa [Ledger.lend, hne] using h.2⟩

theorem owes_lend (L : Ledger ι κ) (i : ι) (k : κ) : (L.lend i k).Owes i k :=
  ⟨Or.inl rfl, by simp [Ledger.lend]⟩

theorem mem_account_lend {L : Ledger ι κ} {i j : ι} {k l : κ} :
    l ∈ (L.lend i k).account j ↔ l ∈ L.account j ∨ (j = i ∧ l = k) := by
  by_cases heq : j = i
  · subst heq
    simp [Ledger.lend, or_comm]
  · simp [Ledger.lend, heq]

theorem Covered.lend {L : Ledger ι κ} (h : L.Covered) (i : ι) (k : κ) : (L.lend i k).Covered := by
  intro l hl
  by_cases heq : l = k
  · subst heq
    exact ⟨i, owes_lend L i l, mem_account_lend.mpr (Or.inr ⟨rfl, rfl⟩)⟩
  · obtain ⟨j, howes, hj⟩ := h l (hl.resolve_left heq)
    exact ⟨j, howes.lend heq, mem_account_lend.mpr (Or.inl hj)⟩

/-- An item that is in may be lent. -/
theorem Exclusive.lend {L : Ledger ι κ} (h : L.Exclusive) (i : ι) {k : κ} (hin : k ∉ L.lent) :
    (L.lend i k).Exclusive := by
  intro j l hl
  rcases mem_account_lend.mp hl with hl | ⟨rfl, rfl⟩
  · have howes := h j l hl
    exact howes.lend fun heq => hin (heq ▸ howes.1)
  · exact owes_lend L j l

end Ledger

end BitTorrentClient.Library
