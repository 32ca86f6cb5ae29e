/-
  Library/Frames.lean --- a stream cut into frames by their announced lengths.

  A frame is a header of fixed width, from which the length of the body is read, and the
  body.  `frames` cuts a stream into the bodies of its complete frames and stops at the
  first one that is cut off, in its header or in its body.  What `encode` puts together,
  `frames` takes apart again.

  Nothing here says what a header looks like.
-/
import Mathlib.Data.List.Basic

set_option autoImplicit false

namespace BitTorrentClient.Library

variable {α : Type}

/-- How frames announce their lengths. -/
structure Header (α : Type) where
  /-- how many elements a header has -/
  width : Nat
  /-- how many elements a header announces -/
  size : List α → Nat
  /-- a header takes up room, so that a stream has finitely many frames -/
  width_pos : 0 < width

namespace Header

variable (header : Header α)

/-- The bodies of the complete frames of a stream, in order. -/
def frames (stream : List α) : List (List α) :=
  if stream.length < header.width then []
  else if (stream.drop header.width).length < header.size (stream.take header.width) then []
  else
    (stream.drop header.width).take (header.size (stream.take header.width)) ::
      frames ((stream.drop header.width).drop (header.size (stream.take header.width)))
termination_by stream.length
decreasing_by
  have hpos := header.width_pos
  simp only [List.length_drop]
  omega

variable {header} {stream : List α}

/-- A header is cut off. -/
theorem frames_of_short (h : stream.length < header.width) : header.frames stream = [] := by
  rw [frames, if_pos h]

/-- A body is cut off. -/
theorem frames_of_cut
    (h : (stream.drop header.width).length < header.size (stream.take header.width)) :
    header.frames stream = [] := by
  rw [frames, if_pos h]
  split <;> rfl

theorem frames_of_whole (hheader : header.width ≤ stream.length)
    (hbody : header.size (stream.take header.width) ≤ (stream.drop header.width).length) :
    header.frames stream =
      (stream.drop header.width).take (header.size (stream.take header.width)) ::
        header.frames ((stream.drop header.width).drop
          (header.size (stream.take header.width))) := by
  rw [frames, if_neg (Nat.not_lt.mpr hheader), if_neg (Nat.not_lt.mpr hbody)]

/-- No frame of the stream is complete. -/
def CutOff (header : Header α) (stream : List α) : Prop :=
  stream.length < header.width ∨
    (stream.drop header.width).length < header.size (stream.take header.width)

theorem frames_of_cutOff (h : header.CutOff stream) : header.frames stream = [] := by
  rcases h with hshort | hcut
  · exact frames_of_short hshort
  · exact frames_of_cut hcut

/-- The two parts are a frame. -/
structure IsFrame (header : Header α) (head body : List α) : Prop where
  width : head.length = header.width
  size : header.size head = body.length

/-- The first frame of a stream that starts with one. -/
theorem frames_append {head body : List α} (h : header.IsFrame head body) (rest : List α) :
    header.frames (head ++ body ++ rest) = body :: header.frames rest := by
  have htake : (head ++ body ++ rest).take header.width = head := by
    rw [List.append_assoc, ← h.width, List.take_left']
    rfl
  have hdrop : (head ++ body ++ rest).drop header.width = body ++ rest := by
    rw [List.append_assoc, ← h.width, List.drop_left']
    rfl
  rw [frames_of_whole, htake, hdrop, h.size, List.take_left' rfl, List.drop_left' rfl]
  · rw [← h.width]
    simp
  · rw [htake, hdrop, h.size]
    simp

/-- **Taking apart what was put together**, with whatever follows it. -/
theorem frames_flatMap {ι : Type} {head body : ι → List α} {items : List ι}
    (h : ∀ item ∈ items, header.IsFrame (head item) (body item)) (rest : List α) :
    header.frames ((items.flatMap fun item => head item ++ body item) ++ rest) =
      items.map body ++ header.frames rest := by
  induction items with
  | nil => rfl
  | cons item items ih =>
    rw [List.flatMap_cons, List.append_assoc, frames_append (h item List.mem_cons_self),
      ih fun item hitem => h item (List.mem_cons_of_mem _ hitem), List.map_cons, List.cons_append]

end Header

end BitTorrentClient.Library
