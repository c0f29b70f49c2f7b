import DreamChain.Chain.HeadSync

/-!
The block log and the database of reversible blocks. In every run, also after switches that were
taken back and blocks that could not be committed, the log ends in the root of the fork database
and the reversible blocks are those from there to the head, which the chain state was built from.
-/

namespace DreamChain
open Library ForkDatabase UndoStack

variable {σ : Type}

structure StoresAgree (X : Execution σ) (P : Primitives) (c : Controller σ) : Prop where
  log : ∃ block, c.blog.head = some block ∧ block.id P = c.forkDb.root.id
  numbers : c.reversibleBlocks.map Prod.fst = (List.range' (c.forkDb.root.blockNum + 1)
    (c.head.blockNum - c.forkDb.root.blockNum)).reverse
  chain : ∃ base l, base.revision = c.forkDb.root.blockNum ∧
    Path c.forkDb.index c.forkDb.root.id c.head.id l ∧
    c.reversibleBlocks = l.map (fun b => (b.blockNum, b.block)) ∧
    (∀ b ∈ l, ∃ block, b.block = some block ∧ block.id P = b.id) ∧ Trail X.run base l c.db

theorem block_stores_agree {X : Execution σ} {P : Primitives} {validator : FeatureValidator}
    {V : BlockHeaderState → Prop} {guard : Controller σ → Prop} {c : Controller σ}
    (hV : LibMonotone V) (hbound : ∀ s, V s → s.blockNum + 1 < 2 ^ 32)
    (h : ControllerRun X P validator V guard c) : StoresAgree X P c := by
  obtain ⟨hlevel, _⟩ := h.level hV hbound
  obtain ⟨base, l, hc⟩ := hlevel.consistent
  have hstore := hc.reversible hlevel.live.1
  obtain ⟨top, htop, _⟩ := hc.head.exists_top hc.tree.toTreeInvariant
  refine ⟨?_, ?_, base, l, hc.revision, hc.head.path, hstore, fun b hb => ?_, hc.trail⟩
  · cases hlog : c.blog.head with
    | none => exact absurd hlog hlevel.live.2
    | some block => exact ⟨block, rfl, (hc.log.head block hlog).1⟩
  · rw [hstore, List.map_map, hc.head_blockNum, Nat.add_sub_cancel_left]
    exact hc.tree.onPath_map_blockNum htop
  · obtain ⟨block, hblock, hid, _⟩ := hc.tree.blocks b (hc.head.path.mem b hb)
    exact ⟨block, hblock, hid⟩

/-- The run that leaves the two heads different. -/
theorem block_stores_agree_sync : let c := syncBlocks.foldl syncReceive sampleStart
    c.reversibleBlocks.map Prod.fst = [2] ∧ StoresAgree (refusing [3, 4]) runPrimitives c := by
  refine ⟨by decide +kernel, ?_⟩
  have h₀ : ControllerRun (refusing [3, 4]) runPrimitives (fun _ _ _ => .ok ())
      (fun s => s ∈ syncHeaders) (fun _ => True) sampleStart :=
    .start {} [] .speculative (by decide +kernel) nofun
  exact block_stores_agree syncHeaders_libMonotone (by decide +kernel)
    ((((h₀.syncReceive trivial (by decide +kernel)).syncReceive trivial
      (by decide +kernel)).syncReceive trivial (by decide +kernel)).syncReceive trivial
        (by decide +kernel))

end DreamChain
