/-!
# The vocabulary of the shading language

The reserved words by class, the punctuation marks, and the names that a shader may use without
declaring them: the built-in functions, and the variables that begin with `gl_`.
-/

namespace ShaderSource

/-- What a reserved word is for. -/
inductive KeywordClass where
  /-- Names a built-in type. -/
  | type
  /-- Qualifies a declaration: storage, interpolation, precision, memory or invariance. -/
  | qualifier
  /-- Any other reserved word. -/
  | reserved
  deriving DecidableEq, Repr, Inhabited

namespace Vocabulary

/-- The names of the built-in types. -/
def typeNames : List String :=
  ["void", "bool", "int", "uint", "float", "double", "vec2", "vec3", "vec4", "dvec2", "dvec3",
    "dvec4", "bvec2", "bvec3", "bvec4", "ivec2", "ivec3", "ivec4", "uvec2", "uvec3", "uvec4",
    "mat2", "mat3", "mat4", "mat2x2", "mat2x3", "mat2x4", "mat3x2", "mat3x3", "mat3x4", "mat4x2",
    "mat4x3", "mat4x4", "dmat2", "dmat3", "dmat4", "dmat2x2", "dmat2x3", "dmat2x4", "dmat3x2",
    "dmat3x3", "dmat3x4", "dmat4x2", "dmat4x3", "dmat4x4", "atomic_uint", "sampler1D",
    "sampler2D", "sampler3D", "samplerCube", "sampler1DShadow", "sampler2DShadow",
    "samplerCubeShadow", "sampler1DArray", "sampler2DArray", "sampler1DArrayShadow",
    "sampler2DArrayShadow", "samplerCubeArray", "samplerCubeArrayShadow", "sampler2DRect",
    "sampler2DRectShadow", "samplerBuffer", "sampler2DMS", "sampler2DMSArray",
    "samplerExternalOES", "isampler1D", "isampler2D", "isampler3D", "isamplerCube",
    "isampler1DArray", "isampler2DArray", "isamplerCubeArray", "isampler2DRect", "isamplerBuffer",
    "isampler2DMS", "isampler2DMSArray", "usampler1D", "usampler2D", "usampler3D", "usamplerCube",
    "usampler1DArray", "usampler2DArray", "usamplerCubeArray", "usampler2DRect", "usamplerBuffer",
    "usampler2DMS", "usampler2DMSArray", "image1D", "image2D", "image3D", "imageCube",
    "image1DArray", "image2DArray", "imageCubeArray", "image2DRect", "imageBuffer", "image2DMS",
    "image2DMSArray", "iimage1D", "iimage2D", "iimage3D", "iimageCube", "iimage1DArray",
    "iimage2DArray", "iimageCubeArray", "iimage2DRect", "iimageBuffer", "iimage2DMS",
    "iimage2DMSArray", "uimage1D", "uimage2D", "uimage3D", "uimageCube", "uimage1DArray",
    "uimage2DArray", "uimageCubeArray", "uimage2DRect", "uimageBuffer", "uimage2DMS",
    "uimage2DMSArray"]

/-- The words that qualify a declaration. -/
def qualifiers : List String :=
  ["const", "in", "out", "inout", "attribute", "uniform", "varying", "buffer", "shared",
    "centroid", "sample", "patch", "smooth", "flat", "noperspective", "invariant", "precise",
    "highp", "mediump", "lowp", "coherent", "volatile", "restrict", "readonly", "writeonly"]

/-- The reserved words that neither name a type nor qualify. -/
def reservedWords : List String :=
  ["break", "continue", "do", "for", "while", "switch", "case", "default", "if", "else",
    "discard", "return", "struct", "layout", "precision", "subroutine"]

/-- The class of a reserved word, or `none` for a word that is free. -/
def keywordClass (word : String) : Option KeywordClass :=
  if typeNames.contains word then some .type
  else if qualifiers.contains word then some .qualifier
  else if reservedWords.contains word then some .reserved
  else none

/-- Whether the word may follow `precision` in a precision statement. -/
def isPrecisionQualifier (word : String) : Bool :=
  ["highp", "mediump", "lowp"].contains word

/-- The punctuation marks. A mark stands before every shorter mark that it begins with, so the
first one that fits is the longest. -/
def punctuation : List String :=
  ["<<=", ">>=", "++", "--", "<=", ">=", "==", "!=", "&&", "||", "^^", "+=", "-=", "*=", "/=",
    "%=", "&=", "^=", "|=", "<<", ">>", "(", ")", "[", "]", "\x7b", "\x7d", ".", ",", ";", ":",
    "=", "+", "-", "*", "/", "%", "<", ">", "!", "~", "&", "|", "^", "?"]

/-- The names of the built-in functions. -/
def builtinFunctions : List String :=
  ["EmitStreamVertex", "EmitVertex", "EndPrimitive", "EndStreamPrimitive", "abs", "acos", "acosh",
    "all", "any", "asin", "asinh", "atan", "atanh", "atomicAdd", "atomicAnd", "atomicCompSwap",
    "atomicCounter", "atomicCounterDecrement", "atomicCounterIncrement", "atomicExchange",
    "atomicMax", "atomicMin", "atomicOr", "atomicXor", "barrier", "bitCount", "bitfieldExtract",
    "bitfieldInsert", "bitfieldReverse", "ceil", "clamp", "cos", "cosh", "cross", "dFdx",
    "dFdxCoarse", "dFdxFine", "dFdy", "dFdyCoarse", "dFdyFine", "degrees", "determinant",
    "distance", "dot", "equal", "exp", "exp2", "faceforward", "findLSB", "findMSB",
    "floatBitsToInt", "floatBitsToUint", "floor", "fma", "fract", "frexp", "fwidth",
    "fwidthCoarse", "fwidthFine", "greaterThan", "greaterThanEqual", "groupMemoryBarrier",
    "imageAtomicAdd", "imageAtomicAnd", "imageAtomicCompSwap", "imageAtomicExchange",
    "imageAtomicMax", "imageAtomicMin", "imageAtomicOr", "imageAtomicXor", "imageLoad",
    "imageSamples", "imageSize", "imageStore", "imulExtended", "intBitsToFloat",
    "interpolateAtCentroid", "interpolateAtOffset", "interpolateAtSample", "inverse",
    "inversesqrt", "isinf", "isnan", "ldexp", "length", "lessThan", "lessThanEqual", "log",
    "log2", "matrixCompMult", "max", "memoryBarrier", "memoryBarrierAtomicCounter",
    "memoryBarrierBuffer", "memoryBarrierImage", "memoryBarrierShared", "min", "mix", "mod",
    "modf", "noise", "noise1", "noise2", "noise3", "noise4", "normalize", "not", "notEqual",
    "outerProduct", "packDouble2x32", "packHalf2x16", "packSnorm2x16", "packSnorm4x8",
    "packUnorm", "packUnorm2x16", "packUnorm4x8", "pow", "radians", "reflect", "refract", "round",
    "roundEven", "sign", "sin", "sinh", "smoothstep", "sqrt", "step", "tan", "tanh", "texelFetch",
    "texelFetchOffset", "texture", "textureGather", "textureGatherOffset", "textureGatherOffsets",
    "textureGrad", "textureGradOffset", "textureLod", "textureLodOffset", "textureOffset",
    "textureProj", "textureProjGrad", "textureProjGradOffset", "textureProjLod",
    "textureProjLodOffset", "textureProjOffset", "textureQueryLevels", "textureQueryLod",
    "textureSamples", "textureSize", "transpose", "trunc", "uaddCarry", "uintBitsToFloat",
    "umulExtended", "unpackDouble2x32", "unpackHalf2x16", "unpackSnorm2x16", "unpackSnorm4x8",
    "unpackUnorm", "unpackUnorm2x16", "unpackUnorm4x8", "usubBorrow"]

/-- Whether the name is that of a built-in function. -/
def isBuiltinFunction (name : String) : Bool :=
  builtinFunctions.contains name

/-- Whether the name is kept for built-in variables. -/
def isBuiltinVariable (name : String) : Bool :=
  ['g', 'l', '_'].isPrefixOf name.toList

end Vocabulary

end ShaderSource
