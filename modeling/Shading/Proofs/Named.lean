import Mathlib.Data.List.Forall2
import Shading.Proofs.Table

/-!
# Images of named values

A partial function is applied to every value of a list or of a table, and the names stay. There is
a result only if every value has an image. Two tables are related in this way if they are filled
under the same names (`Table.MapsTo.insert`), and then they are read in the same way
(`Table.MapsTo.get?_rel`).
-/

namespace Shading

variable {α β : Type} {image : α → Option β}

/-- Named values with their images, if every value has an image. -/
def mapNamed (image : α → Option β) : List (String × α) → Option (List (String × β))
  | [] => some []
  | (name, value) :: rest =>
    (image value).bind fun mapped => (mapNamed image rest).map ((name, mapped) :: ·)

/-- The images stand beside the values, under the same names. -/
theorem mapNamed_eq_some_iff {values : List (String × α)} {images : List (String × β)} :
    mapNamed image values = some images ↔
      List.Forall₂ (fun value mapped => value.1 = mapped.1 ∧ image value.2 = some mapped.2)
        values images := by
  induction values generalizing images with
  | nil => cases images <;> simp [mapNamed]
  | cons first rest ih =>
      constructor
      · intro mapped
        obtain ⟨value, isImage, later⟩ := Option.bind_eq_some_iff.mp mapped
        obtain ⟨images, isRest, rfl⟩ := Option.map_eq_some_iff.mp later
        exact .cons ⟨rfl, isImage⟩ (ih.mp isRest)
      · intro related
        cases related with
        | cons isFirst later =>
            obtain ⟨sameName, isImage⟩ := isFirst
            simp only [mapNamed, isImage, ih.mpr later, sameName, Option.bind_some,
              Option.map_some]

/-- There are images if every value has one. -/
theorem exists_mapNamed {values : List (String × α)}
    (total : ∀ value ∈ values.map Prod.snd, ∃ mapped, image value = some mapped) :
    ∃ images, mapNamed image values = some images := by
  induction values with
  | nil => exact ⟨[], rfl⟩
  | cons first rest ih =>
      obtain ⟨mapped, isImage⟩ := total first.2 List.mem_cons_self
      obtain ⟨images, isRest⟩ := ih fun value member => total value (List.mem_cons_of_mem _ member)
      refine ⟨(first.1, mapped) :: images, ?_⟩
      simp only [mapNamed, isImage, isRest, Option.bind_some, Option.map_some]

/-- Another map that gives the same images can take the place of a map. -/
theorem mapNamed_transfer {other : α → Option β} {values : List (String × α)}
    {images : List (String × β)} (mapped : mapNamed image values = some images)
    (same : ∀ value ∈ values.map Prod.snd, ∀ mapped, image value = some mapped →
      other value = some mapped) : mapNamed other values = some images := by
  rw [mapNamed_eq_some_iff] at mapped ⊢
  induction mapped with
  | nil => exact .nil
  | cons isFirst _ ih =>
      refine .cons ⟨isFirst.1, same _ List.mem_cons_self _ isFirst.2⟩ (ih ?_)
      exact fun value member => same value (List.mem_cons_of_mem _ member)

/-- An inverse of the map leads from the images back to the values. -/
theorem mapNamed_invert {back : β → Option α} {values : List (String × α)}
    {images : List (String × β)} (mapped : mapNamed image values = some images)
    (inverse : ∀ mapped ∈ images.map Prod.snd, ∀ value, image value = some mapped →
      back mapped = some value) : mapNamed back images = some values := by
  rw [mapNamed_eq_some_iff] at mapped ⊢
  induction mapped with
  | nil => exact .nil
  | cons isFirst _ ih =>
      refine .cons ⟨isFirst.1.symm, inverse _ List.mem_cons_self _ isFirst.2⟩ (ih ?_)
      exact fun value member => inverse value (List.mem_cons_of_mem _ member)

/-- Every entry among the images comes from an entry of the same name. -/
theorem exists_entry_of_mapNamed {values : List (String × α)} {images : List (String × β)}
    (mapped : mapNamed image values = some images) {entry : String × β} (member : entry ∈ images) :
    ∃ value, (entry.1, value) ∈ values ∧ image value = some entry.2 := by
  rw [mapNamed_eq_some_iff] at mapped
  induction mapped with
  | nil => cases member
  | cons isFirst _ ih =>
      rcases List.mem_cons.mp member with rfl | later
      · exact ⟨_, List.mem_cons.mpr (Or.inl (Prod.ext isFirst.1.symm rfl)), isFirst.2⟩
      · obtain ⟨value, inside, isImage⟩ := ih later
        exact ⟨value, List.mem_cons_of_mem _ inside, isImage⟩

/-- Every image comes from a value. -/
theorem exists_of_mem_mapNamed {values : List (String × α)} {images : List (String × β)}
    (mapped : mapNamed image values = some images) {result : β}
    (member : result ∈ images.map Prod.snd) : ∃ value, image value = some result := by
  obtain ⟨entry, inside, rfl⟩ := List.mem_map.mp member
  obtain ⟨value, -, isImage⟩ := exists_entry_of_mapNamed mapped inside
  exact ⟨value, isImage⟩

/-- Images of two lists, one after the other. -/
theorem mapNamed_append {first second : List (String × α)}
    {firstImages secondImages : List (String × β)}
    (isFirst : mapNamed image first = some firstImages)
    (isSecond : mapNamed image second = some secondImages) :
    mapNamed image (first ++ second) = some (firstImages ++ secondImages) := by
  rw [mapNamed_eq_some_iff] at isFirst isSecond ⊢
  exact List.rel_append isFirst isSecond

namespace Table

variable {table : Table String α} {images : Table String β} {name : String}

/-- The values of one table are the images of the values of another, under the same names. -/
def MapsTo (image : α → Option β) (table : Table String α) (images : Table String β) : Prop :=
  mapNamed image table.entries = some images.entries

theorem mapsTo_empty (image : α → Option β) : (empty : Table String α).MapsTo image empty := rfl

/-- Inserting a value and its image under one name keeps images beside values. -/
theorem mapNamed_insertEntry {values : List (String × α)} {images : List (String × β)}
    (mapped : mapNamed image values = some images) {value : α} {result : β}
    (isImage : image value = some result) :
    mapNamed image (insertEntry name value values) = some (insertEntry name result images) := by
  rw [mapNamed_eq_some_iff] at mapped ⊢
  induction mapped with
  | nil => exact .cons ⟨rfl, isImage⟩ .nil
  | cons isFirst later ih =>
      rw [insertEntry, insertEntry, isFirst.1]
      split
      · exact .cons ⟨rfl, isImage⟩ (.cons isFirst later)
      · exact .cons ⟨rfl, isImage⟩ later
      · exact .cons isFirst ih

/-- A value and its image can be inserted under one name. -/
theorem MapsTo.insert (mapped : table.MapsTo image images) {value : α} {result : β}
    (isImage : image value = some result) (name : String) :
    (table.insert name value).MapsTo image (images.insert name result) :=
  mapNamed_insertEntry mapped isImage

/-- Tables of lists are related if the lists are. -/
theorem mapsTo_ofList {values : List (String × α)} {results : List (String × β)}
    (mapped : mapNamed image values = some results) :
    (ofList values).MapsTo image (ofList results) := by
  have filled : ∀ {table : Table String α} {images : Table String β}, table.MapsTo image images →
      (values.foldl (fun table entry => table.insert entry.1 entry.2) table).MapsTo image
        (results.foldl (fun table entry => table.insert entry.1 entry.2) images) := by
    rw [mapNamed_eq_some_iff] at mapped
    induction mapped with
    | nil => exact fun related => related
    | cons isFirst _ ih =>
        intro table images related
        rw [List.foldl_cons, List.foldl_cons, ← isFirst.1]
        exact ih (related.insert isFirst.2 _)
  exact filled (mapsTo_empty image)

/-- A table is mapped alike by another map that gives the same images. -/
theorem MapsTo.transfer {other : α → Option β} (mapped : table.MapsTo image images)
    (same : ∀ value ∈ table.values, ∀ result, image value = some result →
      other value = some result) : table.MapsTo other images :=
  mapNamed_transfer mapped same

/-- A table has as many images as values. -/
theorem MapsTo.size_eq (mapped : table.MapsTo image images) : table.size = images.size :=
  (mapNamed_eq_some_iff.mp mapped).length_eq

/-- A name has a value in both tables or in none, and then the one is the image of the other. -/
theorem MapsTo.get?_rel (mapped : table.MapsTo image images) (name : String) :
    Option.Rel (fun value result => image value = some result) (table.get? name)
      (images.get? name) := by
  rw [MapsTo, mapNamed_eq_some_iff] at mapped
  unfold get?
  generalize table.entries = values at mapped ⊢
  generalize images.entries = results at mapped ⊢
  induction mapped with
  | nil => exact .none
  | cons isFirst _ ih =>
      rw [List.find?_cons, List.find?_cons, isFirst.1]
      split
      · exact .some isFirst.2
      · exact ih

/-- A value found under a name has its image under that name. -/
theorem MapsTo.exists_image {value : α} (mapped : table.MapsTo image images) {name : String}
    (found : table.get? name = some value) :
    ∃ result, images.get? name = some result ∧ image value = some result := by
  have related := mapped.get?_rel name
  rw [found] at related
  generalize images.get? name = known at related ⊢
  cases related with
  | some isImage => exact ⟨_, rfl, isImage⟩

/-- An image found under a name has its value under that name. -/
theorem MapsTo.exists_value {result : β} (mapped : table.MapsTo image images) {name : String}
    (found : images.get? name = some result) :
    ∃ value, table.get? name = some value ∧ image value = some result := by
  have related := mapped.get?_rel name
  rw [found] at related
  generalize table.get? name = known at related ⊢
  cases related with
  | some isImage => exact ⟨_, rfl, isImage⟩

end Table

end Shading
