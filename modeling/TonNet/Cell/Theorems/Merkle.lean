import TonNet.Cell.Theorems.Builder
import TonNet.Cell.Usage

-- The exotic cells this crate writes itself: always well formed, and over the bytes they should be.

namespace TonNet

open Fallible Method

namespace Builder

variable {b : Builder}

theorem storeRefs_ends (l : List Cell) (h : b.refs.length + l.length ≤ maxRefs) :
    ∃ b', (l.forM storeRef).Ends b () b' ∧ b'.refs = b.refs ++ l ∧ b'.data = b.data ∧
      b'.bits = b.bits := by
  induction l generalizing b
  case nil => exact ⟨b, by simp, by simp, rfl, rfl⟩
  case cons cell l hi =>
    simp only [List.length_cons] at h
    have hlt : b.refs.length < maxRefs := by omega
    have ⟨b', he, hr, hd, hb⟩ := hi (b := b.pushRef cell hlt) (by simp [pushRef]; omega)
    refine ⟨b', ends_bind.mpr ⟨(), _, storeRef_ends cell hlt, he⟩, ?_, hd, hb⟩
    rw [hr, pushRef, List.append_assoc]
    rfl

-- Copying a cell's bits leaves them as they are.
theorem storeBitsOf_ends (cell : Cell) (h : b.bits + cell.bits ≤ maxBits) :
    ∃ b', (storeBitsOf cell).Ends b () b' ∧
      b.Appends ((List.range cell.bits).map cell.data.bitAt) b' := by
  have ⟨b', hf, ha⟩ := forM_ends (b := b) (fun i => [cell.data.bitAt i]) (List.range cell.bits)
    (fun _ => rfl) (fun _ _ => storeBit_ends _) (by simpa using h)
  rw [← List.map_eq_flatMap] at ha
  exact ⟨b', hf, ha⟩

theorem storeBitsOf_refs {P : Cell → Prop} (cell : Cell) :
    Yields (fun b : Builder => ∀ r ∈ b.refs, P r) (fun _ => True) (storeBitsOf cell) :=
  .forM fun _ _ => storeBit_refs _

-- A builder of whole bytes closes over them as they are.
theorem closed_of_toBits {data : Bytes} (h : b.toBits = data.toBits) :
    b.closed = data ∧ b.bits = 8 * data.length := by
  have hb : b.bits = 8 * data.length := by
    rw [← toBits_length, h, Bytes.toBits_length]
  refine ⟨?_, hb⟩
  rw [closed, if_neg (by omega)]
  exact data_eq_of_toBits h

theorem finish_ok [Sha256] {data : Bytes} {kind : CellType} {mask : Nat}
    (h : b.toBits = data.toBits)
    (p : Cell.Parts data (8 * data.length) b.refs kind mask)
    (hm : mask = impliedMask kind (childrenMask (b.refs.map Cell.identity)) mask) :
    ∃ c, b.finish kind mask = .ok c ∧ c.WellFormed ∧ c.levelMask = mask ∧
      ∃ identity, c = ⟨data, 8 * data.length, b.refs, kind, identity⟩ := by
  have ⟨hd, hb⟩ := closed_of_toBits h
  have ⟨c, hc⟩ := p.fromParts_ok b.refs_le hm
  have ⟨wf, mask_eq, shape⟩ := p.wellFormed hc
  exact ⟨c, by rw [finish, hd, hb, hc], wf, mask_eq, shape⟩

end Builder

theorem tagged_of_bytes (data : Bytes) : Tagged data (8 * data.length) :=
  ⟨by omega, by omega⟩

-- The body of a branch standing for one hash and depth.
def branchBody (cell : Cell) : Bytes :=
  storedBody 0x01 [(cell.hash, cell.depth)]

theorem branchBody_length (cell : Cell) : (branchBody cell).length = 36 :=
  storedBody_length ..

-- The body of a Merkle cell: its tag, every hash it covers, every depth.
def coveringBody (tag : UInt8) (covered : List Cell) : Bytes :=
  [tag] ++ covered.flatMap (·.hash.bytes) ++ covered.flatMap (depthBytes ·.depth)

theorem coveringBody_length (tag : UInt8) (covered : List Cell) :
    (coveringBody tag covered).length = 1 + 34 * covered.length := by
  have hashes := List.length_flatMap_of_forall (fun c : Cell => c.hash.length_eq) covered
  have depths := List.length_flatMap_of_forall
    (fun c : Cell => Bytes.be_length 2 c.depth.toNat) covered
  simp only [coveringBody, List.length_append, List.length_singleton, hashes]
  simp only [depthBytes, depths]
  omega

theorem storeCovered_ends (tag : UInt8) {covered : List Cell} (few : covered.length ≤ 2) :
    ∃ b, (Builder.storeCovered tag covered).Ends .new () b ∧
      b.toBits = (coveringBody tag covered).toBits ∧ b.refs = covered := by
  obtain ⟨b₁, h₁, a₁⟩ := Builder.storeByte_ends (b := .new) tag (by decide)
  have e₁ : b₁.bits = 8 := a₁.bits_eq
  have hash (c : Cell) (b : Builder) (hb : b.bits + 256 ≤ maxBits) :
      ∃ b', (Builder.storeBytes c.hash.bytes).Ends b () b' ∧ b.Appends c.hash.bytes.toBits b' :=
    Builder.storeBytes_ends _ (by rw [Hash.length_eq]; exact hb)
  obtain ⟨b₂, h₂, a₂⟩ := Builder.forM_ends (b := b₁) _ covered
    (fun c => by rw [Bytes.toBits_length, Hash.length_eq]) hash
    (by rw [e₁]; simp only [maxBits]; omega)
  rw [← Bytes.toBits_flatMap] at a₂
  have e₂ : b₂.bits = 8 + 256 * covered.length := by
    rw [a₂.bits_eq, e₁, Bytes.toBits_length,
      List.length_flatMap_of_forall (fun c : Cell => c.hash.length_eq)]
    omega
  obtain ⟨b₃, h₃, a₃⟩ := Builder.forM_ends (b := b₂) _ covered
    (fun c => by rw [Bytes.toBits_length, depthBytes, Bytes.be_length])
    (fun c _ => Builder.storeDepth_ends c.depth)
    (by rw [e₂]; simp only [maxBits]; omega)
  rw [← Bytes.toBits_flatMap] at a₃
  have run := (a₁.trans a₂).trans a₃
  have none : b₃.refs = [] := run.refs
  obtain ⟨b₄, h₄, refs, data, bits⟩ := Builder.storeRefs_ends (b := b₃) covered
    (by rw [none]; simp only [maxRefs, List.length_nil]; omega)
  rw [none, List.nil_append] at refs
  refine ⟨b₄, ?_, ?_, refs⟩
  · simp only [Builder.storeCovered, ends_bind]
    exact ⟨(), b₁, h₁, (), b₂, h₂, (), b₃, h₃, h₄⟩
  · rw [Builder.toBits, data, bits, ← Builder.toBits, run.toBits, Builder.toBits_new, coveringBody,
      Bytes.toBits_append, Bytes.toBits_append, List.nil_append]

theorem storeBranch_ends (cell : Cell) :
    ∃ b, (Builder.storeBranch cell).Ends .new () b ∧ b.toBits = (branchBody cell).toBits ∧
      b.refs = [] := by
  have ⟨b₁, h₁, a₁⟩ := Builder.storeByte_ends (b := .new) 0x01 (by decide)
  have e₁ : b₁.bits = 8 := a₁.bits_eq
  have ⟨b₂, h₂, a₂⟩ := Builder.storeByte_ends (b := b₁) 0x01 (by rw [e₁]; decide)
  have e₂ : b₂.bits = 16 := a₂.bits_eq.trans (by rw [e₁]; rfl)
  have ⟨b₃, h₃, a₃⟩ := Builder.storeBytes_ends (b := b₂) cell.hash.bytes
    (by rw [e₂, Hash.length_eq]; decide)
  have e₃ : b₃.bits = 272 := a₃.bits_eq.trans (by rw [e₂, Bytes.toBits_length, Hash.length_eq])
  have ⟨b₄, h₄, a₄⟩ := Builder.storeDepth_ends (b := b₃) cell.depth (by rw [e₃]; decide)
  have run := ((a₁.trans a₂).trans a₃).trans a₄
  have bits : b₄.toBits = (branchBody cell).toBits := by
    rw [run.toBits, Builder.toBits_new, branchBody, storedBody, Bytes.toBits_append,
      Bytes.toBits_append, List.flatMap_singleton, List.flatMap_singleton]
    rfl
  refine ⟨b₄, ?_, bits, run.refs⟩
  simp only [Builder.storeBranch, ends_bind]
  exact ⟨(), b₁, h₁, (), b₂, h₂, (), b₃, h₃, h₄⟩

variable [Sha256]

theorem prunedBranch_ok (cell : Cell) :
    ∃ p, prunedBranch cell = .ok p ∧ p.WellFormed ∧ p.levelMask = 1 ∧
      ∃ identity, p = ⟨branchBody cell, 288, [], .prunedBranch, identity⟩ := by
  have ⟨b, stores, bits, refs⟩ := storeBranch_ends cell
  have parts : Cell.Parts (branchBody cell) (8 * (branchBody cell).length) b.refs .prunedBranch
      prunedAtLevelOne := by
    constructor
    case bits_le => rw [branchBody_length]; decide
    case mask_lt => decide
    case tagged => exact tagged_of_bytes _
    case leading => exact fun tag ht => Option.some_inj.mp ht ▸ rfl
    case arity => exact fun n hn => Option.some_inj.mp hn ▸ refs ▸ rfl
    case branch => exact fun _ => ⟨by decide, rfl, branchBody_length cell⟩
    case refs => simp [refs]
  have ⟨p, hp, wf, mask, shape⟩ := Builder.finish_ok bits parts rfl
  refine ⟨p, ?_, wf, mask, by rw [refs, branchBody_length] at shape; exact shape⟩
  rw [prunedBranch, call_eq_ok.mpr stores]
  exact hp

omit [Sha256] in
theorem virtualize_eq_ok {proof content : Cell} :
    virtualize proof = .ok content ↔
      proof.cellType = .merkleProof ∧ proof.reference 0 = some content ∧
      (proof.data.drop coveredHash).take 32 = content.hash.bytes ∧
      depthOf? ((proof.data.drop coveredDepth).take 2) = some content.depth := by
  simp only [virtualize, failIf_bind_eq_ok, okOr_bind_eq_ok, pure_eq_ok, ne_eq, not_not,
    Hash.ofBytes?_eq_some]
  constructor
  · rintro ⟨kind, _, first, _, stored, rfl, _, depth, rfl, rfl⟩
    exact ⟨kind, first, stored, depth⟩
  · rintro ⟨kind, first, stored, depth⟩
    exact ⟨kind, content, first, _, stored, rfl, _, depth, rfl, rfl⟩

-- A Merkle cell over as many ordinary trees as its kind covers.
theorem coveringCell_ok {kind : CellType} {tag : UInt8} {covered : List Cell}
    (ht : kind.tag = some tag) (hk : kind.isMerkle) (hn : kind.expectedRefs = some covered.length)
    (ho : ∀ c ∈ covered, c.isExotic = false) (hw : ∀ c ∈ covered, c.WellFormed) :
    ∃ p, coveringCell kind covered = .ok p ∧ p.WellFormed ∧
      p.levelMask = childrenMask (covered.map Cell.identity) >>> 1 ∧
      ∃ identity, p = ⟨coveringBody tag covered, 8 * (coveringBody tag covered).length, covered,
        kind, identity⟩ := by
  have few : covered.length ≤ 2 := by
    cases kind <;> simp_all [CellType.isMerkle, CellType.expectedRefs]
    all_goals omega
  obtain ⟨b, stores, content, refs⟩ := storeCovered_ends tag few
  have parts : Cell.Parts (coveringBody tag covered) (8 * (coveringBody tag covered).length) b.refs
      kind (childrenMask (covered.map Cell.identity) >>> 1) := by
    have hlt := Cell.childrenMask_refs_lt hw
    constructor
    case bits_le => rw [coveringBody_length]; simp only [maxBits]; omega
    case mask_lt => rw [Nat.shiftRight_eq_div_pow]; omega
    case tagged => exact tagged_of_bytes _
    case leading => exact fun tag' ht' => Option.some_inj.mp (ht.symm.trans ht') ▸ rfl
    case arity => exact fun n hn' => refs ▸ Option.some_inj.mp (hn.symm.trans hn')
    case branch => rintro rfl; simp [CellType.isMerkle] at hk
    case refs => exact refs ▸ hw
  have implied : childrenMask (covered.map Cell.identity) >>> 1 = impliedMask kind
      (childrenMask (b.refs.map Cell.identity)) (childrenMask (covered.map Cell.identity) >>> 1) := by
    rw [refs]
    cases kind <;> simp_all [CellType.isMerkle, impliedMask]
  obtain ⟨p, hp, wf, mask, shape⟩ := Builder.finish_ok content parts implied
  refine ⟨p, ?_, wf, mask, refs ▸ shape⟩
  rw [coveringCell, okOr_bind_eq_ok]
  refine ⟨tag, ht, bind_eq_ok.mpr ⟨(), ?_, by rw [call_eq_ok.mpr stores]; exact hp⟩⟩
  exact forM_eq_ok.mpr fun c hc => failIf_eq_ok.mpr (by simp [ho c hc])

end TonNet
