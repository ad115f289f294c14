import Pworld.Support.Bytes
import Pworld.Support.Framing

/-! Streams of packets that begin with their length in four bytes, where a length out of a
range is rejected. -/
namespace Pworld.Prefixed

open Framing

variable (low high : Nat)

def length (bs : Bytes) : Nat := Bytes.ofLe (bs.take 4)

def packet (p : Bytes) : Bytes := Bytes.le 4 p.length ++ p

def cut (bs : Bytes) : Cut UInt8 Bytes :=
  if bs.length < 4 then .more
  else if length bs > high ∨ length bs < low then .bad
  else if bs.length < 4 + length bs then .more
  else .frame ((bs.drop 4).take (length bs)) (bs.drop (4 + length bs))

variable {low high}

theorem cut_frame {bs f rest : Bytes} (framed : cut low high bs = .frame f rest) :
    low ≤ f.length ∧ f.length ≤ high ∧ f.length < 256^4 ∧ bs = packet f ++ rest := by
  unfold cut at framed
  split_ifs at framed with short bad part
  cases framed
  have size : (bs.take 4).length = 4 := by
    rw [List.length_take]
    omega
  have head := Bytes.le_ofLe (bs.take 4)
  rw [size] at head
  have small : length bs < 256^4 := by
    rw [length,← head,Bytes.ofLe_le]
    exact Nat.mod_lt _ (by decide)
  have whole : ((bs.drop 4).take (length bs)).length = length bs := by
    rw [List.length_take,List.length_drop]
    omega
  refine ⟨by omega,by omega,by omega,?_⟩
  rw [packet,whole,length,head,List.append_assoc,← List.drop_drop,List.take_append_drop,
    List.take_append_drop]

theorem cut_packet {f : Bytes} (least : low ≤ f.length) (most : f.length ≤ high)
    (small : f.length < 256^4) (rest : Bytes) : cut low high (packet f ++ rest) = .frame f rest := by
  have head : (packet f ++ rest).take 4 = Bytes.le 4 f.length := by
    rw [packet,List.append_assoc]
    exact List.take_left' (Bytes.le_length 4 _)
  have tail : (packet f ++ rest).drop 4 = f ++ rest := by
    rw [packet,List.append_assoc]
    exact List.drop_left' (Bytes.le_length 4 _)
  have size : (packet f ++ rest).length = 4 + f.length + rest.length := by
    simp only [packet,List.length_append,Bytes.le_length]
  have announced : length (packet f ++ rest) = f.length := by
    rw [length,head,Bytes.ofLe_le_of_lt small]
  unfold cut
  rw [announced,if_neg (by omega),if_neg (by omega),if_neg (by omega),← List.drop_drop,tail,
    List.take_left,List.drop_left]

theorem cut_bad {xs : Bytes} (ys : Bytes) (bad : cut low high xs = .bad) :
    cut low high (xs ++ ys) = .bad := by
  unfold cut at bad
  split_ifs at bad with short range
  have head : length (xs ++ ys) = length xs := by
    rw [length,length,List.take_append_of_le_length (by omega)]
  unfold cut
  rw [if_neg (by rw [List.length_append]; omega),head,if_pos range]

variable (low high) in
def cutter : Cutter UInt8 Bytes where
  cut := cut low high
  shorter := by
    intro xs f rest framed
    obtain ⟨_,_,_,same⟩ := cut_frame framed
    rw [same]
    simp only [packet,List.length_append,Bytes.le_length]
    omega
  frame_stable := by
    intro xs f rest ys framed
    obtain ⟨least,most,small,rfl⟩ := cut_frame framed
    rw [List.append_assoc]
    exact cut_packet least most small _
  bad_stable := cut_bad

/-- A piece of one packet is all of it, or is cut only with more. -/
theorem piece_cut {p xs : Bytes} (least : low ≤ p.length) (most : p.length ≤ high)
    (small : p.length < 256^4) (piece : xs <+: packet p) :
    xs = packet p ∨ cut low high xs = .more := by
  obtain ⟨ys,whole⟩ := piece
  have all := cut_packet least most small []
  rw [List.append_nil,← whole] at all
  cases now : cut low high xs with
  | more => exact .inr rfl
  | bad =>
    rw [cut_bad ys now] at all
    cases all
  | frame f rest =>
    have stays : cut low high (xs ++ ys) = .frame f (rest ++ ys) :=
      (cutter low high).frame_stable ys now
    rw [stays] at all
    simp only [Cut.frame.injEq,List.append_eq_nil_iff] at all
    obtain ⟨_,_,none_⟩ := all
    left
    rwa [none_,List.append_nil] at whole

end Pworld.Prefixed
