import StructuredStore.Proofs.Store.Placed
import StructuredStore.Proofs.Text.Sorting

/-!
# Items under names

The items of a map and of a set lie under texts: fields and members.  The bytes
of a name are the selector of its item, so that different names have different
items, whatever characters they are made of, and a scan meets the items in the
order of the bytes of their names.

Main results:

- `Named.placed`, `Named.of_placed`: names as what items are kept for.
- `Named.mapM_rowsUnder`, `Named.countUnder_eq`: what a scan meets, and how much
  of it.
-/

namespace StructuredStore.Key

variable {key : String} {marker : Marker}

/-- The key of the item under a name. -/
def namedItem (key : String) (marker : Marker) (name : String) : Bytes :=
  item key marker (Utf8.encode name)

theorem itemStem_prefix_namedItem (key : String) (marker : Marker) (name : String) :
    itemStem key marker <+: namedItem key marker name :=
  List.prefix_append _ _

@[simp]
theorem namedItem_inj {name other : String} :
    namedItem key marker name = namedItem key marker other ↔ name = other := by
  constructor
  · intro h
    exact Utf8.encode_injective (List.append_cancel_left h)
  · rintro rfl
    rfl

theorem namedItem_lt_iff {name other : String} :
    namedItem key marker name < namedItem key marker other ↔
      Utf8.encode name < Utf8.encode other :=
  append_lt_append_iff _ _ _

/-- The name is read back from the key of its item. -/
theorem decode?_drop_namedItem (key : String) (marker : Marker) (name : String) :
    Utf8.decode? ((namedItem key marker name).drop (itemStem key marker).length) = some name := by
  rw [namedItem, item, List.drop_left, Utf8.decode?_encode]

end StructuredStore.Key

namespace StructuredStore.Store

open Engine

/-- Whether the items of a structure are the given values under their names. -/
structure Named (table : Table) (key : String) (marker : Key.Marker)
    (values : String → Option Value) : Prop where
  at_name : ∀ name, (table.get? (Key.namedItem key marker name)).map Frame.decode =
    (values name).map fun value => .ok ⟨value, none⟩
  is_name : ∀ physical, Key.itemStem key marker <+: physical → table.get? physical ≠ none →
    ∃ name, physical = Key.namedItem key marker name

namespace Named

variable {table : Table} {key : String} {marker : Key.Marker} {values : String → Option Value}
  {name : String} {value : Value} {item : Bytes} {names : Finset String}

/-- Different names have different places. -/
theorem places (key : String) (marker : Key.Marker) :
    Places key marker (Key.namedItem key marker) :=
  ⟨Key.itemStem_prefix_namedItem key marker, Key.namedItem_inj.mp⟩

theorem placed (h : Named table key marker values) :
    Placed table key marker (Key.namedItem key marker) values :=
  ⟨places key marker, h.at_name, h.is_name⟩

theorem of_placed (h : Placed table key marker (Key.namedItem key marker) values) :
    Named table key marker values :=
  ⟨h.at_place, h.is_place⟩

/-! ## Point reads -/

theorem isSome_get? (h : Named table key marker values) (name : String) :
    (table.get? (Key.namedItem key marker name)).isSome = (values name).isSome :=
  h.placed.isSome_get? name

theorem get?_eq_none_iff (h : Named table key marker values) :
    table.get? (Key.namedItem key marker name) = none ↔ values name = none :=
  h.placed.get?_eq_none_iff

theorem hasFrame (h : Named table key marker values) (hvalue : values name = some value) :
    table.HasFrame (Key.namedItem key marker name) ⟨value, none⟩ :=
  h.placed.hasFrame hvalue

/-! ## Scans -/

/-- The items lie in the order of the bytes of their names. -/
theorem pairwise_namedItem (key : String) (marker : Key.Marker) (names : Finset String) :
    (Utf8.inOrder names).Pairwise fun a b =>
      Key.namedItem key marker a < Key.namedItem key marker b :=
  (Utf8.pairwise_inOrder names).imp fun hlt => Key.namedItem_lt_iff.mpr hlt

theorem mem_inOrder_iff (hnames : ∀ name, name ∈ names ↔ values name ≠ none) (name : String) :
    name ∈ Utf8.inOrder names ↔ values name ≠ none := by
  rw [Utf8.mem_inOrder, hnames]

/-- There are as many items as names with a value. -/
theorem countUnder_eq (h : Named table key marker values)
    (hnames : ∀ name, name ∈ names ↔ values name ≠ none) :
    table.countUnder (Key.itemStem key marker) = names.card := by
  rw [h.placed.countUnder_eq (pairwise_namedItem key marker names) (mem_inOrder_iff hnames),
    Utf8.length_inOrder]

/-- What is read from all rows, one by one, is what is known of the names. -/
theorem mapM_rowsUnder {α : Type} (h : Named table key marker values)
    (hnames : ∀ name, name ∈ names ↔ values name ≠ none) {read : Row → Except DataError α}
    {entry : String → Option α}
    (hread : ∀ name value contents, values name = some value →
      Frame.decode contents = .ok ⟨value, none⟩ →
      ∃ a, entry name = some a ∧ read (Key.namedItem key marker name, contents) = .ok a) :
    (table.rowsUnder (Key.itemStem key marker)).mapM read =
      .ok ((Utf8.inOrder names).filterMap entry) := by
  rw [h.placed.rowsUnder_eq (pairwise_namedItem key marker names) (mem_inOrder_iff hnames)]
  exact h.placed.mapM_rows (fun name hname => (mem_inOrder_iff hnames name).mp hname) hread

end Named
end StructuredStore.Store
