import DreamChain.Chain.Types
import DreamChain.Library.Descent

/-!
Validation of a binary snapshot: the magic number, the version, and the sections, each of which
is skipped by the size in front of it. The size is unsigned but is added to the read position as
a signed offset, so that it can lead back to an earlier section. The loop of the source has no
bound; here fuel bounds the number of sections that are read.
-/

namespace DreamChain
open Library Worklist Descent

namespace IstreamSnapshotReader

def magicNumber : Nat := 0x30510550

def currentSnapshotVersion : Nat := 1

/-- What `validate` throws when a read or a seek fails. -/
def ioException : ChainException :=
  ⟨.other 3240000, "Binary snapshot validation threw IO exception (${what})"⟩

section

variable (snapshot : List UInt8)

/-- The little-endian integer of `n` bytes at the read position. -/
def read (n pos : Nat) : Fallible Nat :=
  if pos + n ≤ snapshot.length then
    .ok (Nat.ofDigits 256 (((snapshot.drop pos).take n).map UInt8.toNat))
  else .error ioException

/-- The position of the next section, or `none` at the end marker. -/
def validateSection (pos : Nat) : Fallible (Option Nat) := do
  let sectionSize ← read snapshot 8 pos
  if sectionSize = 2 ^ 64 - 1 then .ok none
  else
    let target : Int := pos + 8 + (BitVec.ofNat 64 sectionSize).toInt
    if 0 ≤ target ∧ target < 2 ^ 63 then .ok (some target.toNat) else .error ioException

def validateSections : Nat → Nat → Option (Fallible Unit)
  | 0, _ => none
  | fuel + 1, pos =>
    match validateSection snapshot pos with
    | .error e => some (.error e)
    | .ok none => some (.ok ())
    | .ok (some next) => validateSections fuel next

def validateHeader (pos : Nat) : Fallible Unit := do
  let actualTotem ← read snapshot 4 pos
  eosAssert (actualTotem = magicNumber) (.other 3240000)
    "Binary snapshot has unexpected magic number!"
  let actualVersion ← read snapshot 4 (pos + 4)
  eosAssert (actualVersion = currentSnapshotVersion) (.other 3240000)
    "Binary snapshot is an unsuppored version.  Expected : ${expected}, Got: ${actual}"

def validate (fuel pos : Nat) : Option (Fallible Unit) :=
  match validateHeader snapshot pos with
  | .error e => some (.error e)
  | .ok () => validateSections snapshot fuel (pos + 8)

/-- Where the size at a position leads to. -/
def nextSections (pos : Nat) : List Nat :=
  match validateSection snapshot pos with
  | .ok (some next) => [next]
  | _ => []

end

variable {snapshot : List UInt8}

theorem validateSections_isSome (fuel pos : Nat) :
    (validateSections snapshot fuel pos).isSome ↔ Height (nextSections snapshot) fuel pos := by
  induction fuel generalizing pos with
  | zero => simp [validateSections, Height]
  | succ fuel ih =>
    simp only [validateSections, Height, nextSections]
    cases validateSection snapshot pos with
    | error e => simp
    | ok next => cases next <;> simp [ih]

theorem lt_of_nextSections {pos : Nat} (h : nextSections snapshot pos ≠ []) :
    pos ∈ List.range snapshot.length := by
  by_contra hpos
  rw [List.mem_range] at hpos
  refine h ?_
  rw [nextSections, validateSection, read, if_neg (by omega)]
  rfl

/-- Validation ends exactly when the header is refused or, from the first section on, no size leads
back to a section that led to it. -/
theorem validate_ends_iff (snapshot : List UInt8) (pos : Nat) :
    (∃ fuel, (validate snapshot fuel pos).isSome) ↔
      (∃ e, validateHeader snapshot pos = .error e) ∨
        ∀ p, Reach (nextSections snapshot) (pos + 8) p → ∀ q ∈ nextSections snapshot p,
          ¬ Reach (nextSections snapshot) q p := by
  simp only [validate]
  cases validateHeader snapshot pos with
  | error e => simp
  | ok _ =>
    simp only [validateSections_isSome, reduceCtorEq, exists_false, false_or]
    constructor
    · intro h p hp q hq
      obtain ⟨fuel, h⟩ := h
      exact (h.of_reach hp).not_reach hq
    · intro h
      exact ⟨_, height_of_acyclic_below (fun x => lt_of_nextSections) _ h⟩

/-- A section whose size is the offset of minus eight bytes. -/
def endlessSnapshot : List UInt8 :=
  [0x50, 0x05, 0x51, 0x30, 1, 0, 0, 0, 0xF8, 0xFF, 0xFF, 0xFF, 0xFF, 0xFF, 0xFF, 0xFF]

theorem validate_endless : ¬ ∃ fuel result, validate endlessSnapshot fuel 0 = some result := by
  rintro ⟨fuel, result, h⟩
  have hsection : validateSection endlessSnapshot 8 = .ok (some 8) := by rfl
  have hheader : validateHeader endlessSnapshot 0 = .ok () := by rfl
  rw [validate] at h
  induction fuel with
  | zero => cases h
  | succ fuel ih =>
    exact ih h

end IstreamSnapshotReader

end DreamChain
