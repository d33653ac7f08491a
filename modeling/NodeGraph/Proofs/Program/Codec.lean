import NodeGraph.Fault
import NodeGraph.Program.Codec

/-!
# Reading back what was written

`Reads read bytes a` says that a reader takes exactly `bytes` for `a`: it finds `a` in front of whatever
follows them, and if any of them are missing at the end, it is the end that it complains about. Readers that
run one after the other take their bytes one after the other (`Reads.bind`), so a codec that is put together
from codecs that read back what they write reads back what it writes (`Codec.ReadsBack`).
-/
namespace NodeGraph

variable {α β : Type} {xs ys bytes : List UInt8} {a : α} {b : β}

/-! ## Readers -/

/-- The reader takes exactly these bytes for this value. -/
structure Reads (read : ByteReader α) (bytes : List UInt8) (a : α) : Prop where
  whole (rest : List UInt8) : read (bytes ++ rest) = .ok (a, rest)
  cut {front : List UInt8} : front <+: bytes → front ≠ bytes → read front = .error .unexpectedEnd

/-- What is cut off from two parts ends in the first of them or in the second. -/
theorem cut_append {front : List UInt8} (h : front <+: xs ++ ys) (hne : front ≠ xs ++ ys) :
    (front <+: xs ∧ front ≠ xs) ∨ ∃ mid, front = xs ++ mid ∧ mid <+: ys ∧ mid ≠ ys := by
  rcases List.prefix_or_prefix_of_prefix h (List.prefix_append xs ys) with hfront | ⟨mid, rfl⟩
  · by_cases heq : front = xs
    · refine .inr ⟨[], by simp [heq], List.nil_prefix, ?_⟩
      rintro rfl
      exact hne (by simp [heq])
    · exact .inl ⟨hfront, heq⟩
  · refine .inr ⟨mid, rfl, (List.prefix_append_right_inj xs).1 h, ?_⟩
    rintro rfl
    exact hne rfl

namespace Reads

variable {read : ByteReader α} {f : α → ByteReader β}

theorem pure : Reads (Pure.pure a) [] a where
  whole _ := rfl
  cut h hne := absurd (List.prefix_nil.1 h) hne

theorem bind (h : Reads read xs a) (hf : Reads (f a) ys b) : Reads (read >>= f) (xs ++ ys) b where
  whole rest := by
    show read (xs ++ ys ++ rest) >>= (fun r => f r.1 r.2) = _
    rw [List.append_assoc, h.whole]
    exact hf.whole rest
  cut {front} hfront hne := by
    show read front >>= (fun r => f r.1 r.2) = _
    rcases cut_append hfront hne with ⟨hfront, hne⟩ | ⟨mid, rfl, hmid, hne⟩
    · rw [h.cut hfront hne]
      rfl
    · rw [h.whole]
      exact hf.cut hmid hne

/-- What a reader finds may be read on without further bytes. -/
theorem then_pure (h : Reads read xs a) (hf : f a = Pure.pure b) : Reads (read >>= f) xs b := by
  have hend : Reads (f a) [] b := hf ▸ pure
  have hbind := h.bind hend
  rwa [List.append_nil] at hbind

theorem map (h : Reads read xs a) (g : α → β) : Reads (g <$> read) xs (g a) := by
  rw [map_eq_pure_bind]
  exact h.then_pure rfl

end Reads

namespace Codec

variable {P : α → Prop} {Q : β → Prop} {c : Codec α} {d : Codec β}

/-- The codec reads back those values that have a property. -/
def ReadsBack (P : α → Prop) (c : Codec α) : Prop := ∀ a, P a → Reads c.decode (c.encode a) a

theorem reads_takeByte (x : UInt8) : Reads takeByte [x] x where
  whole _ := rfl
  cut {front} h hne := by
    obtain rfl : front = [] := by simpa [List.prefix_cons_iff, hne] using h
    rfl

/-! ## Numbers -/

theorem toNat_ofNat_byte {n : Nat} (h : n < 256) : (UInt8.ofNat n).toNat = n := UInt8.toNat_ofNat_of_lt' h

/-- Exclusive upper bound of the numbers that fit into some groups and a last one that is limited. -/
def capacity (lastMax : Nat) : Nat → Nat
  | 0 => lastMax + 1
  | groups + 1 => capacity lastMax groups * 128

/-- A number that fits into the groups, the last of which is limited, is read back. -/
theorem reads_decodeGroups (lastMax : Nat) (hlast : lastMax < 128) (groups n : Nat)
    (h : n < capacity lastMax groups) :
    Reads (decodeGroups lastMax (groups + 1)) (encodeGroups (groups + 1) n) n := by
  induction groups generalizing n with
  | zero =>
    have hn : n < 128 := Nat.lt_of_lt_of_le h hlast
    rw [encodeGroups, if_pos hn, decodeGroups]
    refine (reads_takeByte _).then_pure ?_
    have hbyte : (UInt8.ofNat n).toNat = n := toNat_ofNat_byte (by omega)
    have hmax : ¬lastMax < n := Nat.not_lt.2 (Nat.le_of_lt_succ h)
    simp [hbyte, hn, hmax]
  | succ groups ih =>
    rw [encodeGroups, decodeGroups]
    split
    · next hn =>
      refine (reads_takeByte _).then_pure ?_
      have hbyte : (UInt8.ofNat n).toNat = n := toNat_ofNat_byte (by omega)
      simp [hbyte, hn]
    · next hn =>
      have hbyte : (UInt8.ofNat (n % 128 + 128)).toNat = n % 128 + 128 := toNat_ofNat_byte (by omega)
      have hrest : n / 128 < capacity lastMax groups := (Nat.div_lt_iff_lt_mul (by decide)).2 h
      refine (reads_takeByte _).bind ?_
      have hvalue : n % 128 + 128 - 128 + 128 * (n / 128) = n := by omega
      simp only [hbyte, show ¬n % 128 + 128 < 128 by omega, if_false]
      exact (ih _ hrest).then_pure (by rw [hvalue])

theorem readsBack_word : word.ReadsBack (· < wordLimit) := fun n h =>
  reads_decodeGroups 15 (by decide) 4 n h

theorem readsBack_length : length.ReadsBack (· < addressLimit) := fun n h =>
  reads_decodeGroups 1 (by decide) 9 n h

/-! ## Scalars -/

theorem readsBack_bool : bool.ReadsBack fun _ => True := fun b _ =>
  (reads_takeByte _).then_pure (by cases b <;> rfl)

theorem reads_takeBytes (bytes : List UInt8) : Reads (takeBytes bytes.length) bytes bytes where
  whole rest := by simp [takeBytes]
  cut {front} h hne := by
    have hlt : front.length < bytes.length := by
      rcases Nat.lt_or_eq_of_le h.length_le with hlt | heq
      · exact hlt
      · exact absurd (h.eq_of_length heq) hne
    simp [takeBytes, Nat.not_le.2 hlt]

/-- A text whose length can be written. -/
def WritableText (s : String) : Prop := s.utf8ByteSize < addressLimit

instance : DecidablePred WritableText := fun _ => inferInstanceAs (Decidable (_ < _))

theorem fromUTF8?_toUTF8 (s : String) : String.fromUTF8? s.toUTF8 = some s := dif_pos s.isValidUTF8

theorem readsBack_text : text.ReadsBack WritableText := fun s h => by
  refine (readsBack_length _ h).bind ((reads_takeBytes s.toUTF8.data.toList).then_pure ?_)
  rw [Array.toArray_toList, fromUTF8?_toUTF8]

/-! ## Combinations -/

theorem ReadsBack.pair (hc : c.ReadsBack P) (hd : d.ReadsBack Q) :
    (pair c d).ReadsBack fun p => P p.1 ∧ Q p.2 := fun _ h =>
  (hc _ h.1).bind ((hd _ h.2).then_pure rfl)

/-- A codec reads back what stands for the values that it reads back. -/
theorem ReadsBack.imap {toBase : β → α} {ofBase : α → β} (hc : c.ReadsBack P)
    (hinv : ∀ b, ofBase (toBase b) = b) : (imap toBase ofBase c).ReadsBack fun b => P (toBase b) := fun b h => by
  have hmap := (hc _ h).map ofBase
  rwa [hinv] at hmap

theorem ReadsBack.option (hc : c.ReadsBack P) : (option c).ReadsBack fun o => ∀ a ∈ o, P a := fun o h => by
  cases o with
  | none => exact (reads_takeByte 0).then_pure rfl
  | some a => exact (reads_takeByte 1).bind ((hc a (h a rfl)).then_pure rfl)

theorem ReadsBack.decodeMany (hc : c.ReadsBack P) {as : List α} (h : ∀ a ∈ as, P a) :
    Reads (decodeMany c.decode as.length) (as.flatMap c.encode) as := by
  induction as with
  | nil => exact .pure
  | cons a as ih =>
    refine (hc a (h a (by simp))).bind ((ih fun a' ha => h a' (by simp [ha])).then_pure rfl)

/-- A list whose length can be written, of elements with a property. -/
def WritableList (P : α → Prop) (as : List α) : Prop := as.length < addressLimit ∧ ∀ a ∈ as, P a

instance [DecidablePred P] : DecidablePred (WritableList P) := fun _ => inferInstanceAs (Decidable (_ ∧ _))

theorem ReadsBack.list (hc : c.ReadsBack P) : (list c).ReadsBack (WritableList P) := fun _ h =>
  (readsBack_length _ h.1).bind (hc.decodeMany h.2)

/-- Every member of the list is read back, if there are not too many of them. -/
theorem readsBack_choice [DecidableEq α] {all : List α} (hall : all.length ≤ wordLimit) :
    (choice all).ReadsBack (· ∈ all) := fun a ha => by
  have hlt : all.idxOf a < all.length := List.idxOf_lt_length_of_mem ha
  refine (readsBack_word _ (by omega)).then_pure ?_
  rw [List.getElem?_eq_getElem hlt, List.getElem_idxOf]

end Codec

/-! ## Maps -/

namespace SortedMap

variable {κ ν : Type} [Ord κ]

/-- An entry behind all others is put at the end. -/
theorem insertEntry_of_lt {k : κ} {v : ν} {l : List (κ × ν)} (h : ∀ e ∈ l, compare k e.1 = .gt) :
    insertEntry k v l = l ++ [(k, v)] := by
  induction l with
  | nil => rfl
  | cons e rest ih =>
    rw [insertEntry, h e (by simp), List.cons_append, ih fun e' he => h e' (by simp [he])]

variable [Std.TransOrd κ] [Std.LawfulEqOrd κ]

theorem ofList_toList (m : SortedMap κ ν) : ofList m.toList = m := by
  obtain ⟨l, hl⟩ := m
  suffices h : ∀ (rest done : List (κ × ν)) (hdone : (done ++ rest).Pairwise fun a b => compare a.1 b.1 = .lt),
      rest.foldl (fun m e => m.insert e.1 e.2) (⟨done, (List.pairwise_append.1 hdone).1⟩ : SortedMap κ ν) =
        ⟨done ++ rest, hdone⟩ from h l [] hl
  intro rest
  induction rest with
  | nil =>
    intro done hdone
    ext1
    simp
  | cons e rest ih =>
    intro done hdone
    have hlast : ∀ e' ∈ done, compare e.1 e'.1 = .gt := fun e' he' =>
      Std.OrientedCmp.gt_of_lt ((List.pairwise_append.1 hdone).2.2 e' he' e (by simp))
    have hdone' : ((done ++ [e]) ++ rest).Pairwise fun a b => compare a.1 b.1 = .lt := by simpa using hdone
    have hinsert : (⟨done, (List.pairwise_append.1 hdone).1⟩ : SortedMap κ ν).insert e.1 e.2 =
        ⟨done ++ [e], (List.pairwise_append.1 hdone').1⟩ := by
      ext1
      exact insertEntry_of_lt hlast
    rw [List.foldl_cons, hinsert, ih (done ++ [e]) hdone']
    ext1
    simp

end SortedMap

theorem Codec.ReadsBack.sortedMap [Ord α] [Std.TransOrd α] [Std.LawfulEqOrd α] {P : α → Prop} {Q : β → Prop}
    {key : Codec α} {value : Codec β} (hkey : key.ReadsBack P) (hvalue : value.ReadsBack Q) :
    (sortedMap key value).ReadsBack fun m => WritableList (fun e => P e.1 ∧ Q e.2) m.toList :=
  (hkey.pair hvalue).list.imap SortedMap.ofList_toList

end NodeGraph
