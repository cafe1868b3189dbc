import PlaneCalculus.Text.Search

/-!
The shape of the graph `z = f(x, y)`, judged by the functions named in the written form of `f`, with a short and a long
description of each shape.
-/

namespace PlaneCalculus

inductive Surface where
  | trigonometric
  | exponential
  | logarithmic
  | radical
  | quadratic
  | generic
  deriving DecidableEq, Repr

namespace Surface

def mentions (text : String) (words : List String) : Bool := words.any (Text.contains text)

/-- The shape for the short description; the first one that fits. -/
def ofText (text : String) : Surface :=
  if mentions text ["sin", "cos", "tan", "cot", "csc", "sec"] then trigonometric
  else if mentions text ["exp", "E**"] then exponential
  else if mentions text ["log", "ln"] then logarithmic
  else if mentions text ["sqrt"] then radical
  else if mentions text ["^2", "**2"] then quadratic
  else generic

/-- The shape for the long description, which tells fewer shapes apart and asks for roots before logarithms. -/
def ofTextCoarsely (text : String) : Surface :=
  if mentions text ["sin", "cos"] then trigonometric
  else if mentions text ["exp"] then exponential
  else if mentions text ["sqrt"] then radical
  else if mentions text ["log", "ln"] then logarithmic
  else generic

def brief : Surface → String
  | trigonometric =>
    "The graph is a wavy surface typical of trigonometric functions. " ++
    "Crests and valleys repeat periodically across the plane, where the " ++
    "values oscillate between positive and negative."
  | exponential =>
    "The surface grows exponentially as x and y increase. " ++
    "The largest values concentrate in the positive region of the plane."
  | logarithmic =>
    "The surface grows logarithmically. " ++
    "Near the origin the values are lower and they increase slowly as x " ++
    "and y grow."
  | radical =>
    "The graph shows a cone- or bowl-like surface. " ++
    "The square root smooths out changes and produces a radially " ++
    "symmetric shape around the origin."
  | quadratic =>
    "The quadratic function produces a parabolic surface. " ++
    "Values rise quickly with x and y, forming a symmetric bowl centered " ++
    "at the origin."
  | generic =>
    "The surface shows the general behaviour of the function over the " ++
    "xy plane. The largest values appear where x and y are larger."

def detailed : Surface → String
  | trigonometric =>
    "Trigonometric functions such as sine and cosine model oscillations. " ++
    "In three-dimensional space they produce wavy surfaces. Each crest " ++
    "and valley marks where the function reaches its largest and " ++
    "smallest values. These functions describe periodic phenomena such " ++
    "as waves and vibrations."
  | exponential =>
    "Exponential functions show accelerated growth. Over the xy plane " ++
    "the values increase quickly when x and y are positive. Such " ++
    "surfaces appear in growth and decay models in physics and biology."
  | radical =>
    "The square root produces a smooth surface that grows radially. The " ++
    "value increases away from the origin, but with a decreasing slope. " ++
    "Functions like this are associated with distances or magnitudes " ++
    "with circular symmetry."
  | logarithmic =>
    "Logarithmic functions increase slowly and stay non-negative for " ++
    "inputs of at least one. Their graph rises gradually, as in " ++
    "perceptual scales and saturation phenomena."
  | quadratic | generic =>
    "The given function produces a general surface in three-dimensional " ++
    "space. Its shape depends on the powers and combinations of x and y. " ++
    "Studying such surfaces lets us analyze slopes and local maxima and " ++
    "minima."

end Surface

end PlaneCalculus
