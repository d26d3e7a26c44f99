import EpistemicPlanning.Proofs.Text.Paragraphs
import EpistemicPlanning.Task.Description

/-!
# Texts as bytes

A zero byte stands for the character of code zero only. Texts without this character can therefore
be read off their bytes when a zero byte ends each of them (`PlanningTask.encode_injective`).
-/
namespace EpistemicPlanning

variable {s s' : String} {texts texts' : List String}

namespace Text

theorem toList_loop (bytes : ByteArray) (i : Nat) (read : List UInt8) :
    ByteArray.toList.loop bytes i read = read.reverse ++ bytes.data.toList.drop i := by
  fun_induction ByteArray.toList.loop bytes i read with
  | case1 i read hi ih =>
    have hlt : i < bytes.data.toList.length := by simpa using hi
    rw [ih, List.drop_eq_getElem_cons hlt]
    simp [ByteArray.get!, hi]
  | case2 i read hi =>
    have hle : bytes.data.toList.length ≤ i := by simpa using Nat.le_of_not_lt hi
    rw [List.drop_eq_nil_of_le hle, List.append_nil]

theorem toList_byteArray (bytes : ByteArray) : bytes.toList = bytes.data.toList :=
  toList_loop bytes 0 []

theorem toList_toUTF8 : s.toUTF8.toList = s.toList.flatMap String.utf8EncodeChar := by
  rw [toList_byteArray, String.toUTF8_eq_toByteArray, ← String.utf8Encode_toList,
    List.utf8Encode, List.data_toByteArray]

theorem toUTF8_injective (h : s.toUTF8.toList = s'.toUTF8.toList) : s = s' := by
  rw [toList_byteArray, toList_byteArray] at h
  exact String.toByteArray_inj.1 (ByteArray.ext (Array.toList_inj.1 h))

theorem zero_not_mem_map_ofNat (ns : List Nat) (h : ∀ n ∈ ns, n % 256 ≠ 0) :
    0 ∉ ns.map UInt8.ofNat := by
  rw [List.mem_map]
  intro ⟨n, hn, hzero⟩
  exact h n hn (congrArg UInt8.toNat hzero)

theorem zero_not_mem_utf8EncodeChar {c : Char} (hc : c ≠ '\x00') :
    0 ∉ String.utf8EncodeChar c := by
  have hpos : c.val.toNat ≠ 0 := fun hzero => hc (Char.ext (UInt32.toNat_inj.1 hzero))
  unfold String.utf8EncodeChar
  generalize c.val.toNat = v at hpos
  dsimp only
  -- the one byte of a short character is its code, and those of others have the highest bit set
  split
  · exact zero_not_mem_map_ofNat [_] (by simp; omega)
  · split
    · exact zero_not_mem_map_ofNat [_, _] (by simp; omega)
    · split
      · exact zero_not_mem_map_ofNat [_, _, _] (by simp; omega)
      · exact zero_not_mem_map_ofNat [_, _, _, _] (by simp; omega)

theorem zero_not_mem_toUTF8 (h : '\x00' ∉ s.toList) : 0 ∉ s.toUTF8.toList := by
  rw [toList_toUTF8, List.mem_flatMap]
  intro ⟨c, hc, hzero⟩
  exact zero_not_mem_utf8EncodeChar (fun heq => h (heq ▸ hc)) hzero

end Text

namespace PlanningTask

theorem encode_cons : encode (s :: texts) = s.toUTF8.toList ++ 0 :: encode texts := by
  rw [encode, List.flatMap_cons, List.append_assoc]
  rfl

theorem encode_injective (hs : ∀ s ∈ texts, '\x00' ∉ s.toList)
    (hs' : ∀ s ∈ texts', '\x00' ∉ s.toList) (h : encode texts = encode texts') :
    texts = texts' := by
  induction texts generalizing texts' with
  | nil =>
    cases texts' with
    | nil => rfl
    | cons s' texts' =>
      rw [encode_cons] at h
      exact absurd h.symm (List.append_ne_nil_of_right_ne_nil _ (List.cons_ne_nil _ _))
  | cons s texts ih =>
    cases texts' with
    | nil =>
      rw [encode_cons] at h
      exact absurd h (List.append_ne_nil_of_right_ne_nil _ (List.cons_ne_nil _ _))
    | cons s' texts' =>
      obtain ⟨hzero, hs⟩ := List.forall_mem_cons.1 hs
      obtain ⟨hzero', hs'⟩ := List.forall_mem_cons.1 hs'
      rw [encode_cons, encode_cons] at h
      have hbytes : ∀ {s : String}, '\x00' ∉ s.toList → ∀ b ∈ s.toUTF8.toList, b ≠ 0 :=
        fun hs b hb heq => Text.zero_not_mem_toUTF8 hs (heq ▸ hb)
      obtain ⟨hfirst, hrest⟩ :=
        Text.eq_of_begins (hbytes hzero) (hbytes hzero') (by simp) (by simp) h
      rw [Text.toUTF8_injective hfirst, ih hs hs' (List.cons.inj hrest).2]

end PlanningTask

end EpistemicPlanning
