import BlockScript.Proofs.JsonTree
import BlockScript.Proofs.Preorder
import BlockScript.Program.File

/-!
# Saved programs

A program is saved as the text of a document. Every block has its own kind of record there, and reading the record of a
block gives the block back, given that its body is read back (`Block.ofData?_toData`); so a sequence of blocks is read
back from its document (`Block.ofItems?_sequenceToData`). As such documents are read back from their text, **saving a
program and loading it again gives the same program** (`Program.ofJson_toJson`).
-/

namespace BlockScript

open Json (Textual nesting)

/-! ## Documents of programs -/

theorem Data.textual_ofTexts (ss : List String) : Textual (.ofTexts ss) := by
  refine .list fun d hd => ?_
  obtain ⟨s, -, rfl⟩ := List.mem_map.1 hd
  exact .text s

theorem Data.names?_ofTexts (ss : List String) : (Data.ofTexts ss).names? = some ss := by
  change (ss.map text).mapM text? = some ss
  induction ss with
  | nil => rfl
  | cons s ss ih =>
    rw [List.map_cons, List.mapM_cons, ih]
    rfl

theorem Comparison.ofSymbol?_symbol (op : Comparison) : ofSymbol? op.symbol = some op := by
  cases op <;> decide

theorem Data.kind?_name (numbered : Bool) (kind : Block.Kind) : (Data.text kind.name).kind? numbered = some kind := by
  change Block.Kind.all.find? (·.name == kind.name) = some kind
  cases kind <;> decide

namespace Block

theorem textual_sequenceToData (bs : List Block) : ∀ d ∈ sequenceToData bs, Textual d := by
  induction bs using sequence_induction with
  | nil =>
    rw [sequenceToData]
    exact List.forall_mem_nil _
  | cons b bs ihchildren ihbs =>
    have hblock : Textual b.toData := by
      cases b with
      | declare names =>
        rw [toData]
        exact .record (by simp [Textual.text, Data.textual_ofTexts])
      | assign target literal =>
        rw [toData]
        exact .record (by simp [Textual.text])
      | calculate target expression =>
        rw [toData]
        exact .record (by simp [Textual.text])
      | cond lhs op rhs body =>
        have hbody : Textual (.list (sequenceToData body)) := .list ihchildren
        rw [toData]
        exact .record (by simp [Textual.text, hbody])
    rw [sequenceToData]
    exact List.forall_mem_cons.2 ⟨hblock, ihbs⟩

/-- The document of a block is read as that block, if this is so for the blocks inside it. -/
theorem ofData?_toData (numbered below : Bool) (b : Block)
    (hchildren : ofItems? below below (sequenceToData b.children) = some b.children) :
    ofData? numbered below b.toData = some b := by
  cases b with
  | declare names => simp [toData, ofData?, memberParts, Data.only?, Data.kind?_name, ofMembers?, Data.names?_ofTexts]
  | assign target literal => simp [toData, ofData?, memberParts, Data.only?, Data.kind?_name, ofMembers?, Data.text?]
  | calculate target expression =>
    simp [toData, ofData?, memberParts, Data.only?, Data.kind?_name, ofMembers?, Data.text?]
  | cond lhs op rhs body =>
    have hbody : bodyOfData? below (.list (sequenceToData body)) = some body := by
      rw [bodyOfData?]
      exact hchildren
    have hop : (Data.text op.symbol).comparison? = some op := op.ofSymbol?_symbol
    simp [toData, ofData?, memberParts, Data.only?, Data.optional?, Data.kind?_name, ofMembers?, Data.text?, hop, hbody]

/-- **The document of a sequence is read as that sequence**, whether kinds may be numbered or not. -/
theorem ofItems?_sequenceToData (bs : List Block) (numbered below : Bool) :
    ofItems? numbered below (sequenceToData bs) = some bs := by
  -- a body is read with other flags than the sequence around it, so they vary with the induction
  induction bs using sequence_induction generalizing numbered below with
  | nil => rw [sequenceToData, ofItems?]
  | cons b bs ihchildren ihbs =>
    rw [sequenceToData, ofItems?, ofData?_toData numbered below b (ihchildren below below), ihbs]
    rfl

end Block

/-! ## Whole programs -/

namespace Program

theorem textual_toData (t : Program) : Textual t.toData := by
  have hblocks : Textual (.list (Block.sequenceToData t.blocks)) := .list (Block.textual_sequenceToData t.blocks)
  exact .record (by simp [hblocks])

/-- The sequence of blocks is one level below the program. -/
theorem nesting_toData (t : Program) : nesting t.toData = nesting (.list (Block.sequenceToData t.blocks)) + 1 := by
  simp [toData, nesting, Json.memberNesting]

theorem blocksOfJson?_ofData (t : Program) (h : nesting (.list (Block.sequenceToData t.blocks)) ≤ jsonDepth) :
    blocksOfJson? (.ofData (.list (Block.sequenceToData t.blocks))) = some t := by
  have htextual : Textual (.list (Block.sequenceToData t.blocks)) := .list (Block.textual_sequenceToData t.blocks)
  rw [blocksOfJson?, Json.toData?_ofData htextual h]
  change (Block.ofItems? false true (Block.sequenceToData t.blocks)).map Program.mk = some t
  rw [Block.ofItems?_sequenceToData]
  rfl

theorem ofJsonValue?_ofData (t : Program) : ofJsonValue? (.ofData t.toData) =
    blocksOfJson? (.ofData (.list (Block.sequenceToData t.blocks))) := rfl

/-- **Saving a program and loading it again gives the same program.** The only bound is on how deep containers may be
nested in a text that is read. -/
theorem ofJson_toJson (t : Program) (h : nesting t.toData ≤ 127) : ofJson t.toJson = .ok t := by
  have hblocks : nesting (.list (Block.sequenceToData t.blocks)) ≤ jsonDepth := by
    rw [nesting_toData] at h
    exact Nat.le_of_succ_le_succ h
  have hread : ofJson? t.toJson = some t := by
    rw [ofJson?, toJson, Json.read?_pretty t.textual_toData]
    change ofJsonValue? (.ofData t.toData) = some t
    rw [ofJsonValue?_ofData, blocksOfJson?_ofData t hblocks]
  rw [ofJson, hread]
  rfl

/-- Conditions inside one another, around a block whose text takes every kind of escape. -/
def tower : Nat → Block
  | 0 => .assign "\"a\\b/\n\r\t\x08\x0c" "\x00\x1f\x7fü😀"
  | n + 1 => .cond "" .ne "\\u0041" [tower n]

theorem ofJson_toJson_tower :
    nesting (toData ⟨[tower 62, .declare ["x, y", "", "z"], .declare [], .cond "1" .le "2" []]⟩) = 127 ∧
      ofJson (toJson ⟨[tower 62, .declare ["x, y", "", "z"], .declare [], .cond "1" .le "2" []]⟩) =
        .ok ⟨[tower 62, .declare ["x, y", "", "z"], .declare [], .cond "1" .le "2" []]⟩ := by
  have hnesting :
      nesting (toData ⟨[tower 62, .declare ["x, y", "", "z"], .declare [], .cond "1" .le "2" []]⟩) = 127 := by
    decide +kernel
  exact ⟨hnesting, ofJson_toJson _ (Nat.le_of_eq hnesting)⟩

end Program

end BlockScript
