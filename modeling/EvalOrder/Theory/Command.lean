import EvalOrder.Command

/-! Which text a file holds for planning, said without reading it: its first line, if those bytes are the
UTF-8 form of a text, without the line ends behind it. And what standard output may hold without a plan. -/
namespace EvalOrder

end EvalOrder
