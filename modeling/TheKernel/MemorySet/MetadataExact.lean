import TheKernel.MemorySet.MetadataLoop

namespace TheKernel.MemorySet

open Act

section Exact

variable {F B E R M ε : Type} {backend : MappingBackend F B E R} {c d : Call F B E R} {range : Range}
  {shouldUpdate : B → Bool} {update : B → B} {ℓ : B → M} {p : M → Bool} {u : M → M}

section Prepared

def selected (range : Range) (shouldUpdate : B → Bool) (a : Area F B) : Bool :=
  max a.start range.1 < min a.stop range.2 ∧ shouldUpdate a.backend = true

section Merging

variable [DecidableEq F]

end Merging

end Prepared

end Exact

namespace TagTable

/-- The flag table with backends that carry a tag, and a rule for merging them. -/
def backend (canMerge : Nat → Nat → Bool) : MappingBackend Nat Nat Nat (Table Nat) where
  map _ := FlagTable.backend.map ()
  preflightUnmap _ := FlagTable.backend.preflightUnmap ()
  unmap _ := FlagTable.backend.unmap ()
  preflightProtect _ := FlagTable.backend.preflightProtect ()
  protect _ := FlagTable.backend.protect ()
  canMerge := canMerge
  unmapDeferred _ := FlagTable.backend.unmapDeferred ()
  prepareDeferredUnmap _ := FlagTable.backend.prepareDeferredUnmap ()
  unmapDeferredPrepared _ := FlagTable.backend.unmapDeferredPrepared ()
  prepareFixedMap _ := FlagTable.backend.prepareFixedMap ()
  mapFixedPrepared _ := FlagTable.backend.mapFixedPrepared ()
  preflightRestoreDeferred _ := FlagTable.backend.preflightRestoreDeferred ()
  restoreDeferred _ := FlagTable.backend.restoreDeferred ()

section Areas

variable (canMerge : Nat → Nat → Bool)

def mapArea (area : Area Nat Nat) (s : System Nat Nat Nat (Table Nat)) : System Nat Nat Nat (Table Nat) :=
  s.leave (mapWithLimit (backend canMerge) (fun _ => true) area false 8 s.enter).2

def twoTags : System Nat Nat Nat (Table Nat) :=
  mapArea canMerge ⟨8, 16, 7, 1, 1⟩ (mapArea canMerge ⟨0, 8, 7, 0, 1⟩ (System.init fun _ => 0))

def counted : Outcome MetadataUpdateError Unit × Call Nat Nat Nat (Table Nat) :=
  updateMetadataWithLimit (backend canMerge) (fun _ => true) (· + 1) 8 0 16 (twoTags canMerge).enter

variable {canMerge}

end Areas

end TagTable

end TheKernel.MemorySet
