import ClassFile.Image.Contents
import ClassFile.Proofs.ClassParts

/-!
# Markers among attributes

A class or member that is deprecated or synthetic may say so by an attribute, a marker. The reader of the contents takes down
the markers of a table with its other attributes (`CommonAttributes.Marked`), and adds the flags that stand for them to the
flags of the class or member (`AccessFlags.markers`). What it finds in a table that stands somewhere is what the attributes
there are called (`Attribute.names_of_goes`).
-/

namespace ClassFile

open Decoder (Goes)

/-! ## Flags of markers -/

/-- The flags that the markers among attributes of some names stand for. -/
def AccessFlags.markers (names : List String) : UInt32 :=
  (if names.contains "Deprecated" then deprecated else 0) ||| (if names.contains "Synthetic" then synthetic else 0)

/-- What the attributes of a table are called, as far as their names are strings. -/
def Attribute.names (view : PoolView) (table : List Attribute) : List String :=
  table.filterMap fun a => (view.utf8 a.name).toOption

/-- The flags of markers are known to all that can have them. -/
theorem FlagOwner.truncate_markers {owner : FlagOwner} (h : owner ≠ .innerClasses) (bits : UInt32) (names : List String) :
    owner.truncate (bits ||| AccessFlags.markers names) = owner.truncate bits ||| AccessFlags.markers names := by
  have hknown : AccessFlags.markers names &&& owner.mask = AccessFlags.markers names := by
    unfold AccessFlags.markers
    cases owner with
    | innerClasses => exact absurd rfl h
    | _ => split <;> split <;> decide
  have hboth : (bits ||| AccessFlags.markers names) &&& owner.mask =
    (bits &&& owner.mask) ||| (AccessFlags.markers names &&& owner.mask) :=
    UInt32.toBitVec_inj.1 BitVec.and_or_distrib_right
  rw [truncate, hboth, hknown]
  rfl

namespace CommonAttributes

variable {view : PoolView} {c : CommonAttributes} {a : RawAttribute} {names : List String}

/-- The markers found so far, of attributes of some names. -/
structure Marked (c : CommonAttributes) (names : List String) : Prop where
  deprecated : c.deprecated = names.contains "Deprecated"
  synthetic : c.synthetic = names.contains "Synthetic"

/-- The flags of the markers that were found are those that the names stand for. -/
theorem Marked.accessBits (h : c.Marked names) : c.accessBits = AccessFlags.markers names := by
  rw [CommonAttributes.accessBits, h.deprecated, h.synthetic]
  rfl

/-- One more attribute adds the marker of its name, if it is one. -/
theorem Marked.add (h : c.Marked names) {r : Option CommonAttributes} (hadd : c.add view a = .ok r) :
    (r.getD c).Marked (names ++ [a.name]) := by
  obtain ⟨hdeprecated, hsynthetic⟩ := h
  unfold CommonAttributes.add at hadd
  simp only [beq_iff_eq] at hadd
  split at hadd
  · rename_i hname
    obtain ⟨signature, -, hadd⟩ := exists_of_bind_eq_ok hadd
    obtain rfl := Except.ok.inj hadd
    constructor <;> simp [hname, hdeprecated, hsynthetic]
  split at hadd
  · rename_i hname
    obtain rfl := Except.ok.inj hadd
    constructor <;> simp [hname, hsynthetic]
  split at hadd
  · rename_i hname
    obtain rfl := Except.ok.inj hadd
    constructor <;> simp [hname, hdeprecated]
  split at hadd
  · rename_i hname
    obtain rfl := Except.ok.inj hadd
    constructor <;> simp [hname, hdeprecated, hsynthetic]
  · rename_i hD hS _
    obtain rfl := Except.ok.inj hadd
    constructor <;> simp [hdeprecated, hsynthetic, Ne.symm hD, Ne.symm hS]

/-- Attributes are taken down one by one, and the markers among them as those that all can have. -/
theorem marked_foldlM {σ : Type} {common : σ → CommonAttributes} {add : σ → RawAttribute → Except Error σ}
    (hadd : ∀ s a s', add s a = .ok s' → ∃ r, (common s).add view a = .ok r ∧ common s' = r.getD (common s))
    {attributes : List RawAttribute} {s s' : σ} (h : attributes.foldlM add s = .ok s') (hs : (common s).Marked names) :
    (common s').Marked (names ++ attributes.map RawAttribute.name) := by
  induction attributes generalizing s names with
  | nil =>
    obtain rfl := Except.ok.inj h
    simpa using hs
  | cons a rest ih =>
    rw [List.foldlM_cons] at h
    obtain ⟨s₁, hfirst, hrest⟩ := exists_of_bind_eq_ok h
    obtain ⟨r, hr, hcommon⟩ := hadd s a s₁ hfirst
    have hmarked := ih hrest (hcommon ▸ hs.add hr)
    simpa using hmarked

theorem marked_empty : ({} : CommonAttributes).Marked [] :=
  ⟨rfl, rfl⟩

end CommonAttributes

namespace Image

variable {view : PoolView} {attributes : List RawAttribute}

/-- What a class has in common with members is gathered as it is there. -/
theorem common_addClassAttribute {omitted : Omissions} {c c' : ClassAttributes} {a : RawAttribute}
    (h : addClassAttribute view omitted c a = .ok c') : ∃ r, c.common.add view a = .ok r ∧ c'.common = r.getD c.common := by
  unfold addClassAttribute at h
  obtain ⟨r, hr, h⟩ := exists_of_bind_eq_ok h
  refine ⟨r, hr, ?_⟩
  have hread : ∀ {α : Type} {x : Except Error α} {f : α → ClassAttributes}, (x >>= fun v => .ok (f v)) = .ok c' →
      (∀ v, (f v).common = c.common) → c'.common = c.common := by
    intro α x f h hf
    obtain ⟨v, -, h⟩ := exists_of_bind_eq_ok h
    obtain rfl := Except.ok.inj h
    exact hf v
  cases r with
  | some common =>
    obtain rfl := Except.ok.inj h
    rfl
  | none =>
    dsimp only at h
    split at h
    · exact hread h fun _ => rfl
    split at h
    · exact hread h fun _ => rfl
    split at h
    · exact hread h fun _ => rfl
    split at h
    · exact hread h fun _ => rfl
    split at h
    · exact hread h fun _ => rfl
    split at h
    · obtain rfl := Except.ok.inj h
      rfl
    · obtain rfl := Except.ok.inj h
      rfl

/-- What a field has in common with classes is gathered as it is there. -/
theorem common_addFieldAttribute {f f' : FieldAttributes} {a : RawAttribute} (h : addFieldAttribute view f a = .ok f') :
    ∃ r, f.common.add view a = .ok r ∧ f'.common = r.getD f.common := by
  unfold addFieldAttribute at h
  obtain ⟨r, hr, h⟩ := exists_of_bind_eq_ok h
  refine ⟨r, hr, ?_⟩
  cases r with
  | some common =>
    obtain rfl := Except.ok.inj h
    rfl
  | none =>
    dsimp only at h
    split at h
    · obtain ⟨index, -, h⟩ := exists_of_bind_eq_ok h
      obtain ⟨value, -, h⟩ := exists_of_bind_eq_ok h
      obtain rfl := Except.ok.inj h
      rfl
    · obtain rfl := Except.ok.inj h
      rfl

/-- What a method has in common with classes is gathered as it is there. -/
theorem common_addMethodAttribute {m m' : MethodAttributes} {a : RawAttribute} (h : addMethodAttribute view m a = .ok m') :
    ∃ r, m.common.add view a = .ok r ∧ m'.common = r.getD m.common := by
  unfold addMethodAttribute at h
  obtain ⟨r, hr, h⟩ := exists_of_bind_eq_ok h
  refine ⟨r, hr, ?_⟩
  cases r with
  | some common =>
    obtain rfl := Except.ok.inj h
    rfl
  | none =>
    dsimp only at h
    split at h
    · obtain rfl := Except.ok.inj h
      rfl
    split at h
    · obtain ⟨types, -, h⟩ := exists_of_bind_eq_ok h
      obtain rfl := Except.ok.inj h
      rfl
    split at h
    · obtain rfl := Except.ok.inj h
      rfl
    · obtain rfl := Except.ok.inj h
      rfl

/-- What is read of attributes says which markers are among them. -/
theorem marked_classAttributes {omitted : Omissions} {c : ClassAttributes}
    (h : classAttributes view omitted attributes = .ok c) :
    c.common.Marked (attributes.map RawAttribute.name) :=
  CommonAttributes.marked_foldlM (fun _ _ _ => common_addClassAttribute) h CommonAttributes.marked_empty

/-- The markers among the attributes of a field have been found. -/
theorem marked_fieldAttributes {f : FieldAttributes} (h : fieldAttributes view attributes = .ok f) :
    f.common.Marked (attributes.map RawAttribute.name) :=
  CommonAttributes.marked_foldlM (fun _ _ _ => common_addFieldAttribute) h CommonAttributes.marked_empty

/-- The markers among the attributes of a method have been found. -/
theorem marked_methodAttributes {m : MethodAttributes} (h : methodAttributes view attributes = .ok m) :
    m.common.Marked (attributes.map RawAttribute.name) :=
  CommonAttributes.marked_foldlM (fun _ _ _ => common_addMethodAttribute) h CommonAttributes.marked_empty

end Image

/-! ## Tables that are read where they stand -/

/-- A piece is read where it stands, and what is read of it is fit for it. -/
def Decoder.Finds {α β : Type} (d : Decoder α) (write : β → Bytes) (R : β → α → Prop) (b : Bytes) (x : β) : Prop :=
  ∀ (offset : Nat) (a : α) (c' : Cursor), b.HasAt offset (write x) → d.Goes ⟨b, offset⟩ a c' →
    c' = ⟨b, offset + (write x).size⟩ ∧ R x a

namespace Decoder

variable {α β : Type} {d : Decoder α} {write : β → Bytes} {R : β → α → Prop} {xs : List β} {b : Bytes} {offset : Nat}
  {r : Array α} {c' : Cursor}

/-- Pieces that follow on each other are read one by one. -/
theorem forall₂_of_manyFrom {acc : Array α} (hitem : ∀ x ∈ xs, d.Finds write R b x)
    (hat : b.HasAt offset (Bytes.concat (xs.map write))) (h : (manyFrom d xs.length acc).Goes ⟨b, offset⟩ r c') :
    c' = ⟨b, offset + (Bytes.concat (xs.map write)).size⟩ ∧ ∃ as : List α, r = acc ++ as.toArray ∧ List.Forall₂ R xs as := by
  induction xs generalizing offset acc with
  | nil =>
    obtain ⟨rfl, rfl⟩ := Goes.of_pure h
    exact ⟨rfl, [], by simp, .nil⟩
  | cons x rest ih =>
    rw [List.map_cons, Bytes.concat_cons] at hat ⊢
    obtain ⟨hx, hrest⟩ := Bytes.hasAt_append.1 hat
    obtain ⟨a, c₁, hfirst, hnext⟩ := h.of_bind
    obtain ⟨rfl, hR⟩ := hitem x List.mem_cons_self offset a c₁ hx hfirst
    obtain ⟨rfl, as, rfl, has⟩ := ih (fun y hy => hitem y (List.mem_cons_of_mem x hy)) hrest hnext
    exact ⟨by rw [Array.size_append, Nat.add_assoc], a :: as, by simp, .cons hR has⟩

/-- If the pieces of a table are each read where they stand, then what is read of the table is what is read of its pieces. -/
theorem forall₂_of_counted (hitem : ∀ x ∈ xs, d.Finds write R b x) (hl : xs.length < 65536)
    (hat : b.HasAt offset (Bytes.counted (xs.map write))) (h : (counted d).Goes ⟨b, offset⟩ r c') :
    c' = ⟨b, offset + (Bytes.counted (xs.map write)).size⟩ ∧ List.Forall₂ R xs r.toList := by
  have hn : xs.length.toUInt16.toNat = xs.length := UInt16.toNat_ofNat_of_lt hl
  rw [Bytes.counted_eq, List.length_map] at hat ⊢
  obtain ⟨hcount, hitems⟩ := Bytes.hasAt_append.1 hat
  obtain ⟨n, c₁, hnumber, hrest⟩ := h.of_bind
  obtain ⟨rfl, rfl⟩ := (goes_of_reads (Reads.u16 _) hcount).unique hnumber
  rw [hn] at hrest
  obtain ⟨rfl, as, rfl, has⟩ := forall₂_of_manyFrom hitem hitems hrest
  exact ⟨by rw [Array.size_append, Nat.add_assoc], by simpa using has⟩

end Decoder

namespace Attribute

variable {view : PoolView} {table : List Attribute} {b : Bytes} {offset : Nat} {c' : Cursor}

/-- An attribute is read with the name that it has. -/
theorem finds_name {a : Attribute} (ha : a.info.size < 4294967296) :
    (Image.rawAttribute view).Finds encode (fun a raw => view.utf8 a.name = .ok raw.name) b a := by
  intro offset raw c' hat h
  rw [encode, Array.append_assoc] at hat ⊢
  obtain ⟨hname, hat⟩ := Bytes.hasAt_append.1 hat
  obtain ⟨hlength, hinfo⟩ := Bytes.hasAt_append.1 hat
  obtain ⟨i, c₁, hi, h⟩ := Goes.of_bind (d := Decoder.u16) h
  obtain ⟨rfl, rfl⟩ := (Decoder.goes_of_reads (Reads.u16 a.name) hname).unique hi
  obtain ⟨name, c₂, hlooked, h⟩ := h.of_bind
  obtain ⟨hfound, rfl⟩ := Goes.of_lift hlooked
  obtain ⟨length, c₃, hread, h⟩ := h.of_bind
  obtain ⟨rfl, rfl⟩ := (Decoder.goes_of_reads (Reads.u32 _) hlength).unique hread
  obtain ⟨start, c₄, hstart, h⟩ := h.of_bind
  obtain ⟨rfl, rfl⟩ := (Goes.position _).unique hstart
  rw [Outline.toNat_size ha] at h
  obtain ⟨_, c₅, hskip, h⟩ := h.of_bind
  obtain ⟨-, rfl⟩ := (Decoder.goes_of_reads (Reads.skip a.info) hinfo).unique hskip
  obtain ⟨rfl, rfl⟩ := Goes.of_pure h
  exact ⟨by rw [Array.size_append, Array.size_append, Nat.add_assoc, Nat.add_assoc], hfound⟩

/-- Attributes are named as their indices say. -/
theorem names_of_forall₂ {raws : List RawAttribute}
    (h : List.Forall₂ (fun a raw => view.utf8 a.name = .ok raw.name) table raws) :
    raws.map RawAttribute.name = names view table := by
  induction h with
  | nil => rfl
  | cons hname _ ih => rw [names, List.filterMap_cons_some (by rw [hname]; rfl), List.map_cons, ih, names]

/-- A table of attributes is read with the names that its attributes have. -/
theorem names_of_goes (hfits : TableFits table) (hat : b.HasAt offset (encodeTable table)) {raws : List RawAttribute}
    (h : (Image.attributeTable view).Goes ⟨b, offset⟩ raws c') :
    c' = ⟨b, offset + (encodeTable table).size⟩ ∧ raws.map RawAttribute.name = names view table := by
  obtain ⟨r, c₁, hr, hpure⟩ := Goes.of_bind (d := Decoder.counted (Image.rawAttribute view)) h
  obtain ⟨rfl, rfl⟩ := Goes.of_pure hpure
  obtain ⟨hc', hnames⟩ := Decoder.forall₂_of_counted (fun a ha => finds_name (hfits.lengths a ha)) hfits.count hat hr
  exact ⟨hc', names_of_forall₂ hnames⟩

end Attribute

end ClassFile
